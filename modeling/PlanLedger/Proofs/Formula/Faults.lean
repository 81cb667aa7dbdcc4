import PlanLedger.Formula.ReferenceValue
import PlanLedger.Proofs.Formula.Prepared
import PlanLedger.Proofs.SortedMap.Lookup

/-!
# How a calculation fails

In an expanded expression without look-ups everything that is named is known. If the combination
has a value on every dimension on which the expression asks for one, evaluation has nothing left to
find, and it fails only by what it calculates: by a fault of the calculation, or by being broken
off because an aggregate or a rounding leaves the range of decimal numbers.
-/

namespace PlanLedger.Formula

/-- Whether an error is that of a calculation, which may have been broken off. -/
def FormulaError.isCalculation : FormulaError → Bool
  | evaluation _ | outOfRange => true
  | _ => false

/-! ## Operators and functions -/

section

variable {α : Type} {err : FormulaError}

theorem isCalculation_of_ofCalculation {x : Except EvaluationFault α}
    (h : ofCalculation x = .error err) : err.isCalculation = true := by
  cases x with
  | ok a => cases h
  | error fault =>
    cases h
    rfl

theorem isCalculation_of_roundNumber {d : Decimal} {digits : Int}
    (h : roundNumber d digits = .error err) : err.isCalculation = true := by
  rw [roundNumber] at h
  split_ifs at h
  split at h
  · cases h
  · cases h
    rfl

theorem isCalculation_of_apply {f : EagerFunction} {args : List Value}
    (h : f.apply args = .error err) : err.isCalculation = true := by
  cases f with
  | abs => exact isCalculation_of_ofCalculation h
  | min => exact isCalculation_of_ofCalculation h
  | max => exact isCalculation_of_ofCalculation h
  | and => cases h
  | or => cases h
  | not => cases h
  | round =>
    rcases bind_eq_error.mp h with h | ⟨d, -, h⟩
    · exact isCalculation_of_ofCalculation h
    · rcases bind_eq_error.mp h with h | ⟨digits, -, h⟩
      · exact isCalculation_of_ofCalculation h
      · rcases bind_eq_error.mp h with h | ⟨value, -, h⟩
        · exact isCalculation_of_roundNumber h
        · cases h

end

/-! ## Expressions -/

section

variable {x : Context} {args : List Expr} {err : FormulaError}

/-- An expression of which the outermost part finds what it names. -/
def Expr.FindsNode (x : Context) : Expr → Prop
  | .cell ref => ∃ found, ref.resolve x.registry x.bindings = .ok found
  | .call name args => IsLawfulCall name args
  | .subFormula _ | .constant _ | .reference _ => False
  | _ => True

theorem isCalculation_of_cellEvaluate {ref : CellRef}
    (hfound : ∃ found, ref.resolve x.registry x.bindings = .ok found)
    (h : ref.evaluate x = .error err) : err.isCalculation = true := by
  obtain ⟨⟨keyFigure, filter⟩, hfound⟩ := hfound
  rw [CellRef.evaluate, hfound, ok_bind] at h
  dsimp only at h
  split at h
  · cases h
  · split at h
    · cases h
    · cases h
      rfl

theorem evaluateAll_eq_mapM (args : List Expr) :
    evaluateAll x args = args.mapM fun e ↦ e.evaluate x := by
  induction args with
  | nil =>
    rw [evaluateAll]
    rfl
  | cons e rest ih => rw [evaluateAll, ih, List.mapM_cons]

theorem checkCall_eq_ok_iff {f : Function} :
    checkCall f args = .ok () ↔ f.arity.admits args.length = true := by
  rw [checkCall, Function.checkArity]
  cases f.arity.admits args.length with
  | true => exact iff_of_true rfl rfl
  | false => exact iff_of_false (by simp) Bool.false_ne_true

theorem evaluateIf_eq_evaluateCase (h : checkCall .ifThenElse args = .ok ()) :
    evaluateIf x args = evaluateCase x args := by
  obtain ⟨hleast, hmost⟩ := Bool.and_eq_true_iff.mp (checkCall_eq_ok_iff.mp h)
  obtain ⟨condition, value, otherwise, rfl⟩ := List.length_eq_three.mp
    (Nat.le_antisymm (of_decide_eq_true hmost) (of_decide_eq_true hleast))
  simp only [evaluateIf, evaluateCase]

theorem evaluate_eager {name : String} {f : EagerFunction}
    (hf : Function.ofName? name = some (.eager f)) (harity : checkCall (.eager f) args = .ok ()) :
    (Expr.call name args).evaluate x = evaluateAll x args >>= f.apply := by
  rw [Expr.evaluate, hf]
  dsimp only
  rw [harity, ok_bind]

theorem evaluate_distinction {name : String} {f : Function} (hf : Function.ofName? name = some f)
    (hdistinction : f = .ifThenElse ∨ f = .caseWhen) (harity : checkCall f args = .ok ()) :
    (Expr.call name args).evaluate x = evaluateCase x args := by
  rw [Expr.evaluate, hf]
  dsimp only
  rw [harity, ok_bind]
  rcases hdistinction with rfl | rfl
  · exact evaluateIf_eq_evaluateCase harity
  · rfl

theorem isCalculation_of_choice {condition : Expr} {yes no : Except FormulaError Value}
    (hcondition : ∀ err, condition.evaluate x = .error err → err.isCalculation = true)
    (hyes : ∀ err, yes = .error err → err.isCalculation = true)
    (hno : ∀ err, no = .error err → err.isCalculation = true)
    (h : (do if (← condition.evaluate x).isTruthy then yes else no) = .error err) :
    err.isCalculation = true := by
  rcases bind_eq_error.mp h with h | ⟨v, -, h⟩
  · exact hcondition err h
  · split at h
    · exact hyes err h
    · exact hno err h

theorem isCalculation_of_evaluateCase
    (hargs : ∀ e ∈ args, ∀ err, e.evaluate x = .error err → err.isCalculation = true)
    (h : evaluateCase x args = .error err) : err.isCalculation = true := by
  induction args using List.twoStepInduction generalizing err with
  | nil =>
    rw [evaluateCase] at h
    cases h
  | singleton otherwise =>
    rw [evaluateCase] at h
    exact hargs otherwise List.mem_cons_self err h
  | cons_cons condition value rest ih =>
    rw [evaluateCase] at h
    refine isCalculation_of_choice (hargs condition (by simp)) (hargs value (by simp))
      (fun err h ↦ ih (fun e he ↦ hargs e (by simp [he])) h) h

theorem isCalculation_of_call {name : String} (hlawful : IsLawfulCall name args)
    (hargs : ∀ e ∈ args, ∀ err, e.evaluate x = .error err → err.isCalculation = true)
    (h : (Expr.call name args).evaluate x = .error err) : err.isCalculation = true := by
  obtain ⟨f, hf, harity⟩ := hlawful
  have hcheck : checkCall f args = .ok () := checkCall_eq_ok_iff.mpr harity
  cases f with
  | eager f =>
    rw [evaluate_eager hf hcheck] at h
    rcases bind_eq_error.mp h with h | ⟨values, -, h⟩
    · rw [evaluateAll_eq_mapM] at h
      obtain ⟨arg, harg, h⟩ := mapM_eq_error h
      exact hargs arg harg err h
    · exact isCalculation_of_apply h
  | ifThenElse =>
    rw [evaluate_distinction hf (.inl rfl) hcheck] at h
    exact isCalculation_of_evaluateCase hargs h
  | caseWhen =>
    rw [evaluate_distinction hf (.inr rfl) hcheck] at h
    exact isCalculation_of_evaluateCase hargs h

/-- An expression in which everything is found fails only by what it calculates. -/
theorem isCalculation_of_evaluate {e : Expr} (hfinds : ∀ n ∈ e.nodes, n.FindsNode x)
    (h : e.evaluate x = .error err) : err.isCalculation = true := by
  induction e using Expr.inductLeaves generalizing err with
  | leaf e hleaf =>
    have hfound := hfinds e (by simp [Expr.nodes_of_isLeaf hleaf])
    cases e with
    | binary op left right => cases hleaf
    | negate operand => cases hleaf
    | call name args => cases hleaf
    | number value => cases h
    | cell ref => exact isCalculation_of_cellEvaluate hfound h
    | subFormula name => exact hfound.elim
    | constant name => exact hfound.elim
    | reference lookUp => exact hfound.elim
  | binary op left right ihleft ihright =>
    rw [Expr.evaluate] at h
    rcases bind_eq_error.mp h with h | ⟨a, -, h⟩
    · exact ihleft (fun n hn ↦ hfinds n (Expr.mem_nodes_binary.mpr (.inr (.inl hn)))) h
    · rcases bind_eq_error.mp h with h | ⟨b, -, h⟩
      · exact ihright (fun n hn ↦ hfinds n (Expr.mem_nodes_binary.mpr (.inr (.inr hn)))) h
      · exact isCalculation_of_ofCalculation h
  | negate operand ih =>
    rw [Expr.evaluate] at h
    rcases bind_eq_error.mp h with h | ⟨v, -, h⟩
    · exact ih (fun n hn ↦ hfinds n (Expr.mem_nodes_negate.mpr (.inr hn))) h
    · rcases bind_eq_error.mp h with h | ⟨n, -, h⟩
      · exact isCalculation_of_ofCalculation h
      · cases h
  | call name args ih =>
    refine isCalculation_of_call (hfinds _ (Expr.mem_nodes_call.mpr (.inl rfl))) ?_ h
    intro e he err h
    exact ih e he (fun n hn ↦ hfinds n (Expr.mem_nodes_call.mpr (.inr ⟨e, he, hn⟩))) h

theorem isCalculation_of_evaluateScalar {e : Expr} {scale : Nat}
    (hfinds : ∀ n ∈ e.nodes, n.FindsNode x) (h : e.evaluateScalar x scale = .error err) :
    err.isCalculation = true := by
  rw [Expr.evaluateScalar] at h
  rcases bind_eq_error.mp h with h | ⟨v, -, h⟩
  · exact isCalculation_of_evaluate hfinds h
  · cases v with
    | number n => cases h
    | boolean b =>
      cases h
      rfl

end

/-! ## Expanded expressions -/

/-- A combination has a value on every dimension on which filters ask for one. -/
def Binds (b : Bindings) (filters : List DimFilter) : Prop :=
  ∀ f ∈ filters, f.value = .loop → ∃ id, b.get? f.dimension = some id

theorem mem_loopDimensions {filters : List DimFilter} {d : Dimension} :
    d ∈ loopDimensions filters ↔ ∃ f ∈ filters, f.value = .loop ∧ f.dimension = d := by
  rw [loopDimensions, SortedMap.mem_distinct_iff, List.mem_map]
  simp only [List.mem_filter, beq_iff_eq, and_assoc]

section

variable {c : Catalog} {r : Registry} {b : Bindings} {filters : List DimFilter}

/-- A resolved filter asks for the value of the combination, or for one that a text names. -/
theorem DimFilter.IsResolved.exists_resolve {f : DimFilter} (hf : f.IsResolved r)
    (hb : f.value = .loop → ∃ id, b.get? f.dimension = some id) : ∃ id, f.resolve r b = .ok id ∧
      (b.get? f.dimension = some id ∨ ∃ text, r.resolve f.dimension text = .ok id) := by
  rcases hf with hloop | ⟨id, text, hid, htext⟩
  · obtain ⟨id, hid⟩ := hb hloop
    exact ⟨id, by simp only [resolve, hloop, hid], .inl hid⟩
  · exact ⟨id, by simp only [resolve, hid], .inr ⟨text, htext⟩⟩

theorem exists_resolvePairs (hfilters : ∀ f ∈ filters, f.IsResolved r) (hb : Binds b filters) :
    ∃ pairs, resolvePairs r b filters = .ok pairs := by
  cases hpairs : resolvePairs r b filters with
  | ok pairs => exact ⟨pairs, rfl⟩
  | error err =>
    obtain ⟨f, hf, h⟩ := mapM_eq_error hpairs
    obtain ⟨id, hid, -⟩ := (hfilters f hf).exists_resolve (hb f hf)
    rw [DimFilter.resolvePair, hid] at h
    cases h

/-- Every pair of resolved filters is of a value that the combination has or a text names. -/
theorem mem_resolvePairs (hfilters : ∀ f ∈ filters, f.IsResolved r)
    {pairs : List (Dimension × DimId)} (h : resolvePairs r b filters = .ok pairs)
    {p : Dimension × DimId} (hp : p ∈ pairs) :
    b.get? p.1 = some p.2 ∨ ∃ text, r.resolve p.1 text = .ok p.2 := by
  obtain ⟨f, hf, hpair⟩ := exists_mem_of_mapM_eq_ok h hp
  obtain ⟨id, hid, hpair⟩ := bind_eq_ok.mp hpair
  cases hpair
  have hbound : f.value = .loop → ∃ id, b.get? f.dimension = some id := by
    intro hloop
    rw [DimFilter.resolve, hloop] at hid
    dsimp only at hid
    split at hid
    · exact ⟨_, by assumption⟩
    · cases hid
  obtain ⟨id', hid', hnamed⟩ := (hfilters f hf).exists_resolve hbound
  rw [hid] at hid'
  cases hid'
  exact hnamed

theorem CellRef.IsResolved.exists_resolve {ref : CellRef} (href : ref.IsResolved r)
    (hb : Binds b ref.filters) : ∃ found, ref.resolve r b = .ok found := by
  obtain ⟨id, text, hid, -⟩ := href.keyFigure
  obtain ⟨pairs, hpairs⟩ := exists_resolvePairs href.filters hb
  refine ⟨(id, .ofList pairs), ?_⟩
  rw [resolve, resolveKeyFigure, hid, resolveFilters, hpairs]
  rfl

/-- In an expanded expression without look-ups everything is found for a combination that has the
values it asks for. -/
theorem Expr.IsExpanded.findsNode {x : Context} {e : Expr} (he : e.IsExpanded c x.registry)
    (hreferences : e.hasReferences = false) (hb : Binds x.bindings e.filters) :
    ∀ n ∈ e.nodes, n.FindsNode x := by
  intro n hn
  have hexpanded := he n hn
  cases n with
  | cell ref =>
    refine CellRef.IsResolved.exists_resolve hexpanded fun f hf ↦ hb f ?_
    exact List.mem_flatMap.mpr ⟨_, hn, hf⟩
  | reference lookUp => exact absurd rfl (List.any_eq_false.mp hreferences _ hn)
  | subFormula name => exact hexpanded
  | constant name => exact hexpanded
  | call name args => exact hexpanded
  | number value => trivial
  | binary op left right => trivial
  | negate operand => trivial

end

end PlanLedger.Formula
