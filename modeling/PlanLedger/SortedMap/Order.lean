import PlanLedger.SortedMap.Basic

/-!
# Orders by parts

Things with several parts are compared by one part after the other, and sorted maps by the lists of
their entries. Both orders are total, and things that compare as equal are equal.
-/

namespace PlanLedger

/-! ## Two keys -/

/-- Compares by one key, and by a second one where the first does not decide. -/
def compareBoth {α β γ : Type} [Ord β] [Ord γ] (f : α → β) (g : α → γ) : α → α → Ordering :=
  compareLex (compareOn f) (compareOn g)

instance {α β γ : Type} [Ord β] [Ord γ] [Std.TransOrd β] [Std.TransOrd γ] (f : α → β) (g : α → γ) :
    Std.TransCmp (compareBoth f g) :=
  inferInstanceAs (Std.TransCmp (compareLex _ _))

theorem compareBoth_eq_iff {α β γ : Type} [Ord β] [Ord γ] [Std.LawfulEqOrd β] [Std.LawfulEqOrd γ]
    {f : α → β} {g : α → γ} {a b : α} :
    compareBoth f g a b = .eq ↔ f a = f b ∧ g a = g b := by
  simp [compareBoth, compareLex, compareOn, Ordering.then_eq_eq]

instance {α β : Type} [Ord α] [Ord β] [Std.LawfulEqOrd α] [Std.LawfulEqOrd β] :
    Std.LawfulEqCmp (compareBoth (α := α × β) Prod.fst Prod.snd) where
  compare_self := compareBoth_eq_iff.2 ⟨rfl, rfl⟩
  eq_of_compare h := Prod.ext (compareBoth_eq_iff.1 h).1 (compareBoth_eq_iff.1 h).2

/-! ## Sorted maps -/

namespace SortedMap

variable {κ ν : Type} [Ord κ] [Ord ν]

/-- Entries are compared one after another, by their keys and then by their values. -/
def compareEntries : List (κ × ν) → List (κ × ν) → Ordering :=
  List.compareLex (compareBoth Prod.fst Prod.snd)

instance [Std.TransOrd κ] [Std.TransOrd ν] :
    Std.TransCmp (compareEntries : List (κ × ν) → List (κ × ν) → Ordering) :=
  inferInstanceAs (Std.TransCmp (List.compareLex _))

instance [Std.LawfulEqOrd κ] [Std.LawfulEqOrd ν] :
    Std.LawfulEqCmp (compareEntries : List (κ × ν) → List (κ × ν) → Ordering) :=
  inferInstanceAs (Std.LawfulEqCmp (List.compareLex _))

/-- Sorted maps are compared as the lists of their entries. -/
instance : Ord (SortedMap κ ν) where
  compare a b := compareEntries a.toList b.toList

instance [Std.TransOrd κ] [Std.TransOrd ν] : Std.TransOrd (SortedMap κ ν) where
  eq_swap {a b} :=
    show compareEntries a.toList b.toList = _ from Std.OrientedCmp.eq_swap
  isLE_trans {a b c} :=
    show (compareEntries a.toList b.toList).isLE → (compareEntries b.toList c.toList).isLE →
      (compareEntries a.toList c.toList).isLE from Std.TransCmp.isLE_trans

instance [Std.LawfulEqOrd κ] [Std.LawfulEqOrd ν] : Std.LawfulEqOrd (SortedMap κ ν) where
  compare_self {a} := show compareEntries a.toList a.toList = .eq from Std.ReflCmp.compare_self
  eq_of_compare {a b} h := by
    have h : compareEntries a.toList b.toList = .eq := h
    have h := Std.LawfulEqCmp.eq_of_compare h
    cases a
    cases b
    simpa using h

end SortedMap

end PlanLedger
