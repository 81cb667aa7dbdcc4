import Mathlib.Algebra.BigOperators.Group.List.Basic
import Mathlib.Data.List.Infix
import PlanLedger.Proofs.Decimal.Exact

/-!
# Exact sums

Numbers are added up from the first to the last. Nothing is rounded on the way if every sum of the
first few numbers is the value of a number, and then the total is the exact sum. That is so in
particular if every number is on one grid of decimals and the sums stay in range.
-/

namespace PlanLedger

open Decimal (IsMultiple Representable)

def exactSum (values : List Decimal) : ℚ := (values.map Decimal.toRat).sum

variable {places : Nat}

@[simp] theorem exactSum_nil : exactSum [] = 0 := rfl

@[simp] theorem exactSum_cons (d : Decimal) (rest : List Decimal) :
    exactSum (d :: rest) = d.toRat + exactSum rest := by
  rw [exactSum, List.map_cons, List.sum_cons, exactSum]

theorem isMultiple_exactSum {values : List Decimal}
    (h : ∀ value ∈ values, IsMultiple places value.toRat) :
    IsMultiple places (exactSum values) := by
  induction values with
  | nil => exact .zero
  | cons value rest ih =>
    obtain ⟨hvalue, hrest⟩ := List.forall_mem_cons.mp h
    rw [exactSum_cons]
    exact hvalue.add (ih hrest)

/-- Numbers whose sums, from the first number on, are the values of numbers. -/
def SumsExactly (values : List Decimal) : Prop :=
  ∀ part, part <+: values → Representable (exactSum part)

instance : DecidablePred SumsExactly := fun values ↦
  decidable_of_iff (∀ part ∈ values.inits, Representable (exactSum part)) (by
    simp only [List.mem_inits]
    rfl)

/-- Only the values of the numbers matter for their sums. -/
theorem SumsExactly.congr {values values' : List Decimal} (h : SumsExactly values)
    (hvalues : values'.map Decimal.toRat = values.map Decimal.toRat) : SumsExactly values' := by
  intro part hpart
  have hsum : exactSum part = exactSum (values.take part.length) := by
    rw [exactSum, exactSum, List.map_take, ← hvalues, ← List.map_take,
      ← List.prefix_iff_eq_take.mp hpart]
  rw [hsum]
  exact h _ (List.take_prefix _ _)

theorem exists_foldlM_add? {values : List Decimal} {d : Decimal}
    (h : ∀ part, part <+: values → Representable (d.toRat + exactSum part)) :
    ∃ sum, values.foldlM Decimal.add? d = some sum ∧ sum.toRat = d.toRat + exactSum values := by
  induction values generalizing d with
  | nil => exact ⟨d, rfl, by rw [exactSum_nil, add_zero]⟩
  | cons v rest ih =>
    have hfirst : Representable (d.toRat + v.toRat) := by
      have hpart := h [v] ⟨rest, rfl⟩
      rwa [exactSum_cons, exactSum_nil, add_zero] at hpart
    obtain ⟨next, hnext, hvalue⟩ := Decimal.add?_exact hfirst
    have hparts : ∀ part, part <+: rest → Representable (next.toRat + exactSum part) := by
      intro part hpart
      have hlonger := h (v :: part) (List.cons_prefix_cons.mpr ⟨rfl, hpart⟩)
      rwa [exactSum_cons, ← add_assoc, ← hvalue] at hlonger
    obtain ⟨sum, hsum, hsumValue⟩ := ih hparts
    refine ⟨sum, ?_, ?_⟩
    · rw [List.foldlM_cons, hnext]
      exact hsum
    · rw [hsumValue, hvalue, exactSum_cons, add_assoc]

end PlanLedger
