import Mathlib.Data.Nat.Init
import PlanLedger.Proofs.Formula.Leaves
import PlanLedger.Proofs.Formula.Meaning

/-!
# Expansion keeps the meaning

Preparing an expression takes two passes over its leaves. The first puts the texts of sub-formulas
in place of their names, numbers in place of constants, and the numbers of values in place of
their codes; the second puts numbers in place of look-ups. What is between the leaves is left as
it is, so both passes together keep the meaning of every expression if they keep the meaning of
every leaf. For the name of a sub-formula this is an induction on how many more names may be
followed. For codes it rests on a number being resolved to itself.
-/

namespace PlanLedger.Formula

/-! ## Codes -/

theorem DimFilter.resolvePair_expand {r : Registry} {b : Bindings} {f f' : DimFilter}
    (h : f.expand r = .ok f') : f'.resolvePair r b = f.resolvePair r b := by
  obtain ⟨dimension, value⟩ := f
  rw [expand] at h
  obtain ⟨list, -, h⟩ := bind_eq_ok.mp h
  cases value with
  | code text =>
    obtain ⟨id, hid, h⟩ := bind_eq_ok.mp h
    cases h
    simp [resolvePair, resolve, ofRegistry, hid]
  | id id =>
    cases h
    rfl
  | loop =>
    cases h
    rfl

theorem resolvePairs_expand {r : Registry} {b : Bindings} {filters filters' : List DimFilter}
    (h : filters.mapM (DimFilter.expand r) = .ok filters') :
    resolvePairs r b filters' = resolvePairs r b filters := by
  induction filters generalizing filters' with
  | nil =>
    cases h
    rfl
  | cons f rest ih =>
    rw [List.mapM_cons] at h
    obtain ⟨f', hf, h⟩ := bind_eq_ok.mp h
    obtain ⟨rest', hrest, h⟩ := bind_eq_ok.mp h
    cases h
    simp only [resolvePairs, List.mapM_cons] at ih ⊢
    rw [DimFilter.resolvePair_expand hf, ih hrest]

theorem resolveFilters_expand {r : Registry} {b : Bindings} {filters filters' : List DimFilter}
    (h : filters.mapM (DimFilter.expand r) = .ok filters') :
    resolveFilters r b filters' = resolveFilters r b filters := by
  rw [resolveFilters, resolvePairs_expand h, resolveFilters]

theorem resolve_expandKeyFigure {r : Registry} {b : Bindings} {v v' : DimValue}
    (h : expandKeyFigure r v = .ok v') :
    DimFilter.resolve r b ⟨.keyFigure, v'⟩ = DimFilter.resolve r b ⟨.keyFigure, v⟩ := by
  cases v with
  | code text =>
    obtain ⟨id, hid, h⟩ := bind_eq_ok.mp h
    cases h
    simp only [DimFilter.resolve, hid]
  | id id =>
    cases h
    rfl
  | loop => cases h

theorem CellRef.resolve_expand {r : Registry} {b : Bindings} {ref ref' : CellRef}
    (h : ref.expand r = .ok ref') : ref'.resolveKeyFigure r b = ref.resolveKeyFigure r b ∧
      resolvePairs r b ref'.filters = resolvePairs r b ref.filters ∧
      ref'.aggregate = ref.aggregate := by
  rw [expand] at h
  obtain ⟨keyFigure, hkeyFigure, h⟩ := bind_eq_ok.mp h
  obtain ⟨filters, hfilters, h⟩ := bind_eq_ok.mp h
  cases h
  exact ⟨resolve_expandKeyFigure hkeyFigure, resolvePairs_expand (ofRegistry_eq_ok.mp hfilters),
    rfl⟩

theorem CellRef.evaluate_expand {x : Context} {ref ref' : CellRef}
    (h : ref.expand x.registry = .ok ref') : ref'.evaluate x = ref.evaluate x := by
  obtain ⟨hkeyFigure, hpairs, haggregate⟩ := resolve_expand (b := x.bindings) h
  simp only [evaluate, resolve, resolveFilters, hkeyFigure, hpairs, haggregate]

theorem ReferenceContext.value_expand {x : ReferenceContext} {filters filters' : List DimFilter}
    (b : Bindings) (name : String)
    (h : filters.mapM (DimFilter.expand x.registry) = .ok filters') :
    x.value b ⟨name, filters'⟩ = x.value b ⟨name, filters⟩ := by
  simp only [value, resolveFilters_expand h]

/-! ## Agreement -/

/-- An expression means what another one is evaluated to, where names mean what is given. -/
def Setting.Agrees (x : Setting) (named : String → Answer Value) (e e' : Expr) : Prop :=
  e.meaning x named = Answer.of (e'.evaluate x.context)

section

variable {x : Setting} {named : String → Answer Value} {args args' : List Expr}

theorem meaningOfAll_eq (h : List.Forall₂ (x.Agrees named) args args') :
    meaningOfAll x named args = Answer.of (evaluateAll x.context args') := by
  induction h with
  | nil => rw [meaningOfAll, evaluateAll]
  | cons hhead _ ih =>
    rw [meaningOfAll, evaluateAll, hhead, ih]
    simp only [Answer.of_bind]
    rfl

/-- Of two answers one is chosen by a condition. -/
theorem Setting.Agrees.choose {condition condition' : Expr}
    (hcondition : x.Agrees named condition condition') {yes no : Answer Value}
    {yes' no' : Except FormulaError Value} (hyes : yes = Answer.of yes')
    (hno : no = Answer.of no') :
    (do
      let c ← condition.meaning x named
      if c.isTruthy then yes else no) =
    Answer.of (do
      if (← condition'.evaluate x.context).isTruthy then yes' else no') := by
  subst hyes hno
  rw [hcondition, ← Answer.of_bind]
  refine congrArg _ (funext fun c ↦ ?_)
  split <;> rfl

theorem meaningOfIf_eq (h : List.Forall₂ (x.Agrees named) args args') :
    meaningOfIf x named args = Answer.of (evaluateIf x.context args') := by
  match h with
  | .cons hcondition (.cons hvalue (.cons hotherwise .nil)) =>
    rw [meaningOfIf, evaluateIf]
    exact hcondition.choose hvalue hotherwise
  -- Any other number of arguments is the same fault on both sides.
  | .nil => rw [meaningOfIf, evaluateIf] <;> simp
  | .cons _ .nil => rw [meaningOfIf, evaluateIf] <;> simp
  | .cons _ (.cons _ .nil) => rw [meaningOfIf, evaluateIf] <;> simp
  | .cons _ (.cons _ (.cons _ (.cons _ hrest))) =>
    rw [meaningOfIf, evaluateIf] <;> simp [hrest.length_eq]

theorem meaningOfCase_eq (h : List.Forall₂ (x.Agrees named) args args') :
    meaningOfCase x named args = Answer.of (evaluateCase x.context args') := by
  -- The arms come in pairs, so the induction is on the length of the list.
  induction hlength : args.length using Nat.strong_induction_on generalizing args args' with
  | _ length ih =>
    subst hlength
    cases h with
    | nil => rw [meaningOfCase, evaluateCase]
    | cons hcondition hrest =>
      cases hrest with
      | nil =>
        rw [meaningOfCase, evaluateCase]
        exact hcondition
      | cons hvalue hrest =>
        rw [meaningOfCase, evaluateCase]
        exact hcondition.choose hvalue (ih _ (by simp only [List.length_cons]; omega) hrest rfl)

theorem Setting.Agrees.binary (op : BinaryOp) {left left' right right' : Expr}
    (hleft : x.Agrees named left left') (hright : x.Agrees named right right') :
    x.Agrees named (.binary op left right) (.binary op left' right') := by
  rw [Setting.Agrees, Expr.meaning, Expr.evaluate, hleft, hright]
  simp only [Answer.of_bind]

theorem Setting.Agrees.negate {e e' : Expr} (h : x.Agrees named e e') :
    x.Agrees named (.negate e) (.negate e') := by
  rw [Setting.Agrees, Expr.meaning, Expr.evaluate, h]
  simp only [Answer.of_bind]

theorem Setting.Agrees.call (name : String) (h : List.Forall₂ (x.Agrees named) args args') :
    x.Agrees named (.call name args) (.call name args') := by
  rw [Setting.Agrees, Expr.meaning, Expr.evaluate]
  cases Function.ofName? name with
  | none => rfl
  | some f =>
    have hcheck : checkCall f args = checkCall f args' := by
      rw [checkCall, checkCall, h.length_eq]
    dsimp only
    rw [hcheck, ← Answer.of_bind]
    refine congrArg _ (funext fun _ ↦ ?_)
    cases f with
    | eager f =>
      simp only [meaningOfAll_eq h]
      exact Answer.of_bind _ _
    | ifThenElse => exact meaningOfIf_eq h
    | caseWhen => exact meaningOfCase_eq h

end

/-! ## Two passes over the leaves -/

section

variable {x : Setting} {named : String → Answer Value} {f g : Expr → Except FormulaError Expr}

mutual

/-- Two passes that keep the meaning of every leaf keep the meaning of every expression. -/
theorem agrees_of_leaves
    (hleaf : ∀ e e₁ e₂, e.isLeaf = true → f e = .ok e₁ → e₁.bindLeaves g = .ok e₂ →
      x.Agrees named e e₂)
    (e : Expr) {e₁ e₂ : Expr} (h₁ : e.bindLeaves f = .ok e₁) (h₂ : e₁.bindLeaves g = .ok e₂) :
    x.Agrees named e e₂ := by
  cases e with
  | binary op left right =>
    obtain ⟨left₁, right₁, hleft₁, hright₁, rfl⟩ := Expr.bindLeaves_binary_eq_ok h₁
    obtain ⟨left₂, right₂, hleft₂, hright₂, rfl⟩ := Expr.bindLeaves_binary_eq_ok h₂
    exact .binary op (agrees_of_leaves hleaf left hleft₁ hleft₂)
      (agrees_of_leaves hleaf right hright₁ hright₂)
  | negate operand =>
    obtain ⟨operand₁, hoperand₁, rfl⟩ := Expr.bindLeaves_negate_eq_ok h₁
    obtain ⟨operand₂, hoperand₂, rfl⟩ := Expr.bindLeaves_negate_eq_ok h₂
    exact .negate (agrees_of_leaves hleaf operand hoperand₁ hoperand₂)
  | call name args =>
    obtain ⟨args₁, hargs₁, rfl⟩ := Expr.bindLeaves_call_eq_ok h₁
    obtain ⟨args₂, hargs₂, rfl⟩ := Expr.bindLeaves_call_eq_ok h₂
    exact .call name (agrees_of_leaves_list hleaf args hargs₁ hargs₂)
  | _ =>
    rw [Expr.bindLeaves_of_isLeaf rfl] at h₁
    exact hleaf _ _ _ rfl h₁ h₂

theorem agrees_of_leaves_list
    (hleaf : ∀ e e₁ e₂, e.isLeaf = true → f e = .ok e₁ → e₁.bindLeaves g = .ok e₂ →
      x.Agrees named e e₂)
    (args : List Expr) {args₁ args₂ : List Expr} (h₁ : Expr.bindLeavesOfAll f args = .ok args₁)
    (h₂ : Expr.bindLeavesOfAll g args₁ = .ok args₂) : List.Forall₂ (x.Agrees named) args args₂ := by
  cases args with
  | nil =>
    rw [Expr.bindLeavesOfAll] at h₁
    cases h₁
    rw [Expr.bindLeavesOfAll] at h₂
    cases h₂
    exact .nil
  | cons e rest =>
    obtain ⟨e₁, rest₁, he₁, hrest₁, rfl⟩ := Expr.bindLeavesOfAll_cons_eq_ok h₁
    obtain ⟨e₂, rest₂, he₂, hrest₂, rfl⟩ := Expr.bindLeavesOfAll_cons_eq_ok h₂
    exact .cons (agrees_of_leaves hleaf e he₁ he₂) (agrees_of_leaves_list hleaf rest hrest₁ hrest₂)

end

end

/-! ## Expansion and substitution -/

/-- Leaves other than sub-formulas keep their meaning, whatever sub-formulas are opened to. -/
theorem agrees_of_expandLeaf {x : Setting} {named : String → Answer Value}
    {openName : String → Except FormulaError Expr}
    (hopen : ∀ name e₁ e₂, openName name = .ok e₁ → x.substitute e₁ = .ok e₂ →
      x.Agrees named (.subFormula name) e₂) {e e₁ e₂ : Expr} (hleaf : e.isLeaf = true)
    (h₁ : expandLeaf x.catalog x.registry openName e = .ok e₁) (h₂ : x.substitute e₁ = .ok e₂) :
    x.Agrees named e e₂ := by
  cases e with
  | binary op left right => cases hleaf
  | negate operand => cases hleaf
  | call name args => cases hleaf
  | number value =>
    cases h₁
    rw [Setting.substitute, ReferenceContext.substitute, Expr.bindLeaves_of_isLeaf rfl] at h₂
    cases h₂
    rw [Setting.Agrees, Expr.meaning, Expr.evaluate]
  | cell ref =>
    obtain ⟨ref₁, href₁, h₁⟩ := bind_eq_ok.mp h₁
    cases h₁
    rw [Setting.substitute, ReferenceContext.substitute, Expr.bindLeaves_of_isLeaf rfl] at h₂
    cases h₂
    rw [Setting.Agrees, Expr.meaning, Expr.evaluate, CellRef.evaluate_expand (x := x.context) href₁]
  | subFormula name => exact hopen name e₁ e₂ h₁ h₂
  | constant name =>
    obtain ⟨value, hvalue, h₁⟩ := bind_eq_ok.mp h₁
    cases h₁
    rw [Setting.substitute, ReferenceContext.substitute, Expr.bindLeaves_of_isLeaf rfl] at h₂
    cases h₂
    rw [Setting.Agrees, Expr.meaning, Expr.evaluate, hvalue]
    rfl
  | reference call =>
    obtain ⟨data, -, h₁⟩ := bind_eq_ok.mp h₁
    obtain ⟨filters₁, hfilters₁, h₁⟩ := bind_eq_ok.mp h₁
    cases h₁
    rw [Setting.substitute, ReferenceContext.substitute, Expr.bindLeaves_of_isLeaf rfl] at h₂
    obtain ⟨value, hvalue, h₂⟩ := bind_eq_ok.mp h₂
    cases h₂
    have hsame := ReferenceContext.value_expand (x := x.references) x.bindings call.name
      (ofRegistry_eq_ok.mp hfilters₁)
    rw [Setting.Agrees, Expr.meaning, Expr.evaluate, ← hsame, hvalue]
    rfl

theorem Setting.Agrees.subFormula {x : Setting} {depth : Nat} {name : String} {body e' : Expr}
    (hbody : x.catalog.body name = .ok body) (h : x.Agrees (x.named depth) body e') :
    x.Agrees (x.named (depth + 1)) (.subFormula name) e' := by
  rw [Setting.Agrees, Expr.meaning, Setting.named, hbody]
  exact h

/-- Expansion within any sub-formulas keeps the meaning that names have at the depth to which it
may follow them. -/
theorem agrees_expandWithin {x : Setting} {limit room : Nat} {followed : List String}
    {e e₁ e₂ : Expr} (h₁ : expandWithin x.catalog x.registry limit room followed e = .ok e₁)
    (h₂ : x.substitute e₁ = .ok e₂) : x.Agrees (x.named room) e e₂ := by
  -- The induction is on how many more sub-formulas may be followed.
  induction room generalizing followed e e₁ e₂ with
  | zero =>
    refine agrees_of_leaves (fun e e₁ e₂ hleaf h₁ h₂ ↦ ?_) e h₁ h₂
    refine agrees_of_expandLeaf (fun name e₁ e₂ hname _ ↦ ?_) hleaf h₁ h₂
    split at hname <;> cases hname
  | succ room ih =>
    refine agrees_of_leaves (fun e e₁ e₂ hleaf h₁ h₂ ↦ ?_) e h₁ h₂
    refine agrees_of_expandLeaf (fun name e₁ e₂ hname h₂ ↦ ?_) hleaf h₁ h₂
    split at hname
    · cases hname
    · obtain ⟨body, hbody, hname⟩ := bind_eq_ok.mp hname
      exact .subFormula hbody (ih hname h₂)

/-! ## Without look-ups -/

theorem ReferenceContext.substitute_eq_self {x : ReferenceContext} {b : Bindings} {e : Expr}
    (h : e.hasReferences = false) : x.substitute b e = .ok e := by
  refine e.bindLeaves_eq_self fun leaf hleaf _ ↦ ?_
  have hnot := List.any_eq_false.mp h leaf hleaf
  cases leaf with
  | reference call => simp at hnot
  | _ => rfl

/-! ## The meaning of a prepared expression -/

/-- **Preparing an expression keeps its meaning.** Once expanded and with the values in place of
its look-ups, an expression has the value that it means as it was written, or the same error; it
means nothing else. If nothing is looked up, an expanded expression need not be prepared any
further. -/
theorem meaning_of_prepared (x : Setting) (limit : Nat) {e e₁ : Expr}
    (h : e.expand x.catalog x.registry limit = .ok e₁) :
    (∀ e₂, x.substitute e₁ = .ok e₂ → ∀ result,
        e.Means x result ↔ result = e₂.evaluate x.context) ∧
      (e₁.hasReferences = false → x.substitute e₁ = .ok e₁) ∧
      (if e₁.hasReferences then x.substitute e₁ else .ok e₁) = x.substitute e₁ := by
  have hself (hno : e₁.hasReferences = false) : x.substitute e₁ = .ok e₁ :=
    ReferenceContext.substitute_eq_self hno
  refine ⟨fun e₂ h₂ result ↦ ?_, hself, ?_⟩
  · have hmeans : e.Means x (e₂.evaluate x.context) := ⟨limit, agrees_expandWithin h h₂⟩
    constructor
    · exact fun hresult ↦ hresult.unique hmeans
    · rintro rfl
      exact hmeans
  · cases hrefs : e₁.hasReferences with
    | true => rfl
    | false => exact (hself hrefs).symm

/-- A setting in which one sub-formula stands within another one. -/
private def nested : Setting where
  catalog := ((({} : Catalog).withConstant "RATE" .zero).withSubFormula "INNER" "RATE + 1")
    |>.withSubFormula "OUTER" "IF(1 > 1, [REV], $INNER)"
    |>.withReference { name := "Budget", keyFigure := "REV" }
  store := ∅
  registry := ⟨.ofList [(.keyFigure, ⟨.ofList [(1, ⟨1, "REV", ""⟩)], .ofList [("REV", 1)]⟩)]⟩

private def written : Expr :=
  .binary (.arithmetic .add) (.subFormula "OUTER") (.reference ⟨"Budget", []⟩)

/-- The expanded expression with a number in place of its look-up. -/
private def preparedWith (lookedUp : Expr) : Expr :=
  .binary (.arithmetic .add)
    (.call "IF"
      [.binary (.comparison .greater) (.number .one) (.number .one), .cell { keyFigure := .id 1 },
        .binary (.arithmetic .add) (.number .zero) (.number .one)])
    lookedUp

/-- What a name leads to is put in its place through two sub-formulas, and the condition rules out
one of the values. -/
theorem meaning_of_prepared_nested :
    written.expand nested.catalog nested.registry 2 =
        .ok (preparedWith (.reference ⟨"Budget", []⟩)) ∧
      written.Means nested (.ok (.number .one)) := by
  have hexpand : written.expand nested.catalog nested.registry 2 =
      .ok (preparedWith (.reference ⟨"Budget", []⟩)) := by
    decide +kernel
  have hsubstitute : nested.substitute (preparedWith (.reference ⟨"Budget", []⟩)) =
      .ok (preparedWith (.number .zero)) := by
    decide +kernel
  have hvalue : (preparedWith (.number .zero)).evaluate nested.context = .ok (.number .one) := by
    decide +kernel
  exact ⟨hexpand, ((meaning_of_prepared nested 2 hexpand).1 _ hsubstitute _).mpr hvalue.symm⟩

end PlanLedger.Formula
