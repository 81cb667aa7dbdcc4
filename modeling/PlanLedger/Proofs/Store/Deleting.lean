import PlanLedger.Proofs.Store.Current

/-!
# Deleting facts

Facts are deleted row by row over all batches, while readers see one fact of each cell. A filter and
a scope look at the cell of a row only, so a deletion takes all rows of a cell or none of them. No
superseded fact comes back: a cell that loses its current fact has no fact left in any batch.
-/

namespace PlanLedger.Store

variable (s : Store) (f : Filter) (scope : Scope)

theorem mem_select_iff {s : Store} {f : Filter} {scope : Scope} {fact : Fact} :
    fact ∈ s.select f scope ↔ fact ∈ s.allFacts ∧ f.selects scope fact.cell = true := by
  rw [select, List.mem_filter]

theorem allFacts_deleteWhere :
    (s.deleteWhere f scope).allFacts =
      s.allFacts.filter fun fact ↦ !f.selects scope fact.cell := by
  rw [allFacts, allFacts, List.filter_map]
  rfl

/-- Looking a key up after a deletion finds what was there, unless its cell is selected. -/
theorem find?_deleteWhere (key : FactKey) :
    (s.deleteWhere f scope).find? key =
      if f.selects scope key.cell = true then none else s.find? key := by
  rw [find?, deleteWhere, SortedMap.get?_filter, find?]
  cases s.facts.get? key with
  | none => simp
  | some row => by_cases hsel : f.selects scope key.cell = true <;> simp [hsel]

/-- The facts are those that are selected and those that are left, so the difference in size counts
the selected ones. -/
theorem delete_eq :
    s.delete f scope = ((s.select f scope).length, s.deleteWhere f scope) := by
  have hsize (t : Store) : t.facts.size = t.allFacts.length := by
    rw [allFacts, List.length_map]
    rfl
  have hsplit : s.allFacts.length =
      (s.select f scope).length + (s.deleteWhere f scope).allFacts.length := by
    rw [allFacts_deleteWhere, select]
    exact List.length_eq_length_filter_add _
  rw [delete, hsize, hsize, hsplit, Nat.add_sub_cancel]

/-- **Deletion never brings an old value back.** It removes exactly the facts that the filter and
the scope select, gives their number, and leaves everything else in the store as it was. A cell with
a selected fact has no fact in any batch afterwards, hence no current one; every other cell has the
facts and the current fact that it had before. -/
theorem delete_exact :
    ∃ left, s.delete f scope = ((s.select f scope).length, left) ∧
      left = { s with facts := left.facts } ∧
      left.allFacts = s.allFacts.filter (fun fact ↦ fact ∉ s.select f scope) ∧
      ∀ c,
        ((∃ fact ∈ s.select f scope, fact.cell = c) ∧
          (∀ b, left.find? (c.inBatch b) = none) ∧ left.currentFact? c = none) ∨
        ((∀ fact ∈ s.select f scope, fact.cell ≠ c) ∧
          (∀ b, left.find? (c.inBatch b) = s.find? (c.inBatch b)) ∧
          left.currentFact? c = s.currentFact? c) := by
  refine ⟨s.deleteWhere f scope, delete_eq s f scope, rfl, ?_, fun c ↦ ?_⟩
  · rw [allFacts_deleteWhere]
    refine List.filter_congr fun fact hfact ↦ ?_
    simp [mem_select_iff, hfact]
  · have hfind := fun b ↦ find?_deleteWhere s f scope (c.inBatch b)
    by_cases hfact : ∃ fact ∈ s.select f scope, fact.cell = c
    · -- The cell is selected, so all of its rows go.
      obtain ⟨fact, hmem, rfl⟩ := hfact
      have hnone : ∀ b, (s.deleteWhere f scope).find? (fact.cell.inBatch b) = none := fun b ↦
        (hfind b).trans (if_pos (mem_select_iff.mp hmem).2)
      exact .inl ⟨⟨fact, hmem, rfl⟩, hnone, currentFact?_eq_none_iff_find?.mpr hnone⟩
    · have hsame : ∀ b, (s.deleteWhere f scope).find? (c.inBatch b) = s.find? (c.inBatch b) := by
        intro b
        rw [hfind, ite_eq_right_iff]
        intro hsel
        -- The cell may be reached although it has no fact at all.
        refine (Option.eq_none_iff_forall_ne_some.mpr fun fact hsome ↦ hfact ?_).symm
        obtain ⟨hmem, hkey⟩ := find?_eq_some_iff.mp hsome
        have hcell : fact.cell = c := congrArg FactKey.cell hkey
        exact ⟨fact, mem_select_iff.mpr ⟨hmem, hcell ▸ hsel⟩, hcell⟩
      exact .inr ⟨fun fact hmem hcell ↦ hfact ⟨fact, hmem, hcell⟩, hsame, currentFact?_congr hsame⟩

end PlanLedger.Store
