import PlanLedger.Formula.Evaluation
import PlanLedger.Formula.Expansion
import PlanLedger.Formula.ReferenceValue

/-!
# The meaning of an expression

The meaning of an expression is read off the expression as it was written, without preparing it:
the name of a sub-formula means what its text means, a constant is looked up where it stands, and
so is reference data; codes are looked up when their cell is read. All other expressions are
evaluated as prepared ones are, so what a condition rules out has no influence.

Sub-formulas may lead round in a circle, and an expression that follows such a circle has no
meaning at all. Hence names are followed to a depth first. Below the depth there is no answer; an
answer that is found at a depth is found at every greater one, so an expression means one result
at most.
-/

namespace PlanLedger.Formula

/-- Where an expression is read: what it may use, and what it is evaluated against. -/
structure Setting where
  catalog : Catalog
  store : Store
  registry : Registry
  scope : Scope := {}
  bindings : Bindings := ∅
  /-- The version that takes the place of the versions of reference data. -/
  version : Option String := none
  /-- The year that takes the place of the years of reference data. -/
  year : Option String := none

namespace Setting

/-- What a prepared expression is evaluated against. -/
def context (x : Setting) : Context :=
  { store := x.store, registry := x.registry, scope := x.scope, bindings := x.bindings }

/-- Where values of reference data come from. -/
def references (x : Setting) : ReferenceContext :=
  { store := x.store, registry := x.registry, catalog := x.catalog, version := x.version,
    year := x.year }

/-- An expression with the values in place of its look-ups. -/
def substitute (x : Setting) (e : Expr) : Except FormulaError Expr :=
  x.references.substitute x.bindings e

end Setting

/-! ## Answers -/

abbrev Answer (α : Type) := ExceptT FormulaError Option α

namespace Answer

def of {α : Type} (result : Except FormulaError α) : Answer α := ExceptT.mk (some result)

def missing {α : Type} : Answer α := ExceptT.mk none

theorem of_bind {α β : Type} (result : Except FormulaError α) (f : α → Except FormulaError β) :
    (of result >>= fun a ↦ of (f a)) = of (result >>= f) := by
  cases result <;> rfl

theorem of_injective {α : Type} {result result' : Except FormulaError α}
    (h : of result = of result') : result = result' :=
  Option.some.inj h

/-- Where there is an answer, the other answer is the same. -/
def Extends {α : Type} (a a' : Answer α) : Prop := ∀ result, a = of result → a' = of result

namespace Extends

variable {α β : Type} {a a' : Answer α}

theorem refl (a : Answer α) : a.Extends a := fun _ h ↦ h

theorem missing (a : Answer α) : Answer.missing.Extends a := fun _ h ↦ by cases h

theorem bind {f f' : α → Answer β} (h : a.Extends a') (hf : ∀ v, (f v).Extends (f' v)) :
    (a >>= f).Extends (a' >>= f') := by
  intro result hresult
  cases ha : (show Option (Except FormulaError α) from a) with
  | none =>
    cases (show a = Answer.missing from ha)
    cases hresult
  | some first =>
    cases (show a = of first from ha)
    rw [h first rfl]
    cases first with
    | error err => exact hresult
    | ok v => exact hf v result hresult

end Extends

end Answer

/-! ## Meanings -/

mutual

/-- What an expression means as it was written, if the names of sub-formulas mean what is given. -/
def Expr.meaning (x : Setting) (named : String → Answer Value) : Expr → Answer Value
  | .number value => Answer.of (.ok (.number value))
  | .cell ref => Answer.of (ref.evaluate x.context)
  | .binary op left right => do
    let a ← left.meaning x named
    let b ← right.meaning x named
    Answer.of (ofCalculation (op.apply a b))
  | .negate operand => do
    let v ← operand.meaning x named
    Answer.of (do return .number (← ofCalculation v.toNumber).neg)
  | .call name args =>
    match Function.ofName? name with
    | none => Answer.of (.error (.unsupported (.function name)))
    | some f => do
      Answer.of (checkCall f args)
      match f with
      | .eager f => do
        let values ← meaningOfAll x named args
        Answer.of (f.apply values)
      | .ifThenElse => meaningOfIf x named args
      | .caseWhen => meaningOfCase x named args
  | .subFormula name => named name
  | .constant name => Answer.of (do return .number (← x.catalog.constant name))
  | .reference call => Answer.of (do return .number (← x.references.value x.bindings call))

/-- What the expressions of a list mean, up to the first error. -/
def meaningOfAll (x : Setting) (named : String → Answer Value) :
    List Expr → Answer (List Value)
  | [] => Answer.of (.ok [])
  | e :: rest => do
    let v ← e.meaning x named
    let values ← meaningOfAll x named rest
    Answer.of (.ok (v :: values))

/-- What the second expression means if the first holds, and the third if not. -/
def meaningOfIf (x : Setting) (named : String → Answer Value) : List Expr → Answer Value
  | [condition, value, otherwise] => do
    let c ← condition.meaning x named
    if c.isTruthy then value.meaning x named else otherwise.meaning x named
  | args => Answer.of (.error (.arity ⟨.ifThenElse, args.length⟩))

/-- What follows the first condition that holds, or else the last expression; zero if there is
none. -/
def meaningOfCase (x : Setting) (named : String → Answer Value) : List Expr → Answer Value
  | condition :: value :: rest => do
    let c ← condition.meaning x named
    if c.isTruthy then value.meaning x named else meaningOfCase x named rest
  | [otherwise] => otherwise.meaning x named
  | [] => Answer.of (.ok (.number .zero))

end

/-- What the name of a sub-formula means where names are followed to a depth: what its text
means. -/
def Setting.named (x : Setting) : (depth : Nat) → String → Answer Value
  | 0, _ => Answer.missing
  | depth + 1, name => do
    let body ← Answer.of (x.catalog.body name)
    body.meaning x (x.named depth)

/-- An expression means a result if it does so where names are followed to some depth. -/
def Expr.Means (x : Setting) (e : Expr) (result : Except FormulaError Value) : Prop :=
  ∃ depth, e.meaning x (x.named depth) = Answer.of result

/-! ## Greater depths -/

section

variable {x : Setting} {named named' : String → Answer Value}

mutual

theorem Expr.meaning_extends (h : ∀ name, (named name).Extends (named' name)) (e : Expr) :
    (e.meaning x named).Extends (e.meaning x named') := by
  cases e with
  | binary op left right =>
    simp only [Expr.meaning]
    exact (left.meaning_extends h).bind fun _ ↦ (right.meaning_extends h).bind fun _ ↦ .refl _
  | negate operand =>
    simp only [Expr.meaning]
    exact (operand.meaning_extends h).bind fun _ ↦ .refl _
  | call name args =>
    simp only [Expr.meaning]
    cases Function.ofName? name with
    | none => exact .refl _
    | some f =>
      refine (Answer.Extends.refl _).bind fun _ ↦ ?_
      cases f with
      | eager f => exact (meaningOfAll_extends h args).bind fun _ ↦ .refl _
      | ifThenElse => exact meaningOfIf_extends h args
      | caseWhen => exact meaningOfCase_extends h args
  | subFormula name =>
    simp only [Expr.meaning]
    exact h name
  | _ =>
    simp only [Expr.meaning]
    exact .refl _

theorem meaningOfAll_extends (h : ∀ name, (named name).Extends (named' name)) (args : List Expr) :
    (meaningOfAll x named args).Extends (meaningOfAll x named' args) := by
  cases args with
  | nil =>
    simp only [meaningOfAll]
    exact .refl _
  | cons e rest =>
    simp only [meaningOfAll]
    exact (e.meaning_extends h).bind fun _ ↦ (meaningOfAll_extends h rest).bind fun _ ↦ .refl _

theorem meaningOfIf_extends (h : ∀ name, (named name).Extends (named' name)) (args : List Expr) :
    (meaningOfIf x named args).Extends (meaningOfIf x named' args) := by
  match args with
  | [condition, value, otherwise] =>
    simp only [meaningOfIf]
    refine (condition.meaning_extends h).bind fun c ↦ ?_
    split
    · exact value.meaning_extends h
    · exact otherwise.meaning_extends h
  | [] | [_] | [_, _] | _ :: _ :: _ :: _ :: _ =>
    simp only [meaningOfIf]
    exact .refl _

theorem meaningOfCase_extends (h : ∀ name, (named name).Extends (named' name))
    (args : List Expr) : (meaningOfCase x named args).Extends (meaningOfCase x named' args) := by
  match args with
  | condition :: value :: rest =>
    simp only [meaningOfCase]
    refine (condition.meaning_extends h).bind fun c ↦ ?_
    split
    · exact value.meaning_extends h
    · exact meaningOfCase_extends h rest
  | [otherwise] =>
    simp only [meaningOfCase]
    exact otherwise.meaning_extends h
  | [] =>
    simp only [meaningOfCase]
    exact .refl _

end

end

theorem Setting.named_extends {x : Setting} {depth depth' : Nat} (h : depth ≤ depth')
    (name : String) : (x.named depth name).Extends (x.named depth' name) := by
  induction depth generalizing depth' name with
  | zero => exact .missing _
  | succ depth ih =>
    cases depth' with
    | zero => cases h
    | succ depth' =>
      simp only [named]
      exact (Answer.Extends.refl _).bind fun body ↦
        body.meaning_extends fun name ↦ ih (Nat.le_of_succ_le_succ h) name

namespace Expr

variable {x : Setting} {e : Expr} {result result' : Except FormulaError Value}

theorem meaning_named_extends (e : Expr) {depth depth' : Nat} (h : depth ≤ depth') :
    (e.meaning x (x.named depth)).Extends (e.meaning x (x.named depth')) :=
  e.meaning_extends fun name ↦ Setting.named_extends h name

theorem Means.unique (h : e.Means x result) (h' : e.Means x result') : result = result' := by
  obtain ⟨depth, h⟩ := h
  obtain ⟨depth', h'⟩ := h'
  have hmax := e.meaning_named_extends (Nat.le_max_left depth depth') _ h
  have hmax' := e.meaning_named_extends (Nat.le_max_right depth depth') _ h'
  exact Answer.of_injective (hmax.symm.trans hmax')

end Expr

end PlanLedger.Formula
