import PlanLedger.Proofs.Store.Current

/-!
# Writing facts

Both ways of writing a fact, in place of what its key holds or on top of it, come down to one total
operation behind one check of the key: the row of the key is taken as it is, or as it would be
added, and its values are changed. A write touches one key. It decides the current fact of its cell
if no stored fact of the cell is newer, and it never decides that of another cell.
-/

namespace PlanLedger.Store

/-! ## The check and the write -/

theorem checkKey_eq_ok_iff {s : Store} {key : FactKey} :
    s.checkKey key = .ok () ↔
      ∃ batch, s.batches.get? key.batch = some batch ∧ batch.session = key.session := by
  rw [checkKey]
  cases s.batches.get? key.batch with
  | none => simp
  | some batch =>
    by_cases h : batch.session = key.session
    · simp [h]
    · simp [h]

/-- The row of a key, or the row that would be added for it. -/
def rowFor (s : Store) (key : FactKey) (defaults : FactValues) : Row :=
  (s.facts.get? key).getD ⟨s.lastFact + 1, defaults⟩

/-- The store with the values of the row of a key changed, where the row is added if there is
none. -/
def written (s : Store) (key : FactKey) (defaults : FactValues) (change : FactValues → FactValues) :
    Store :=
  { s with
    facts := s.facts.insert key
      { s.rowFor key defaults with values := change (s.rowFor key defaults).values }
    lastFact := if s.facts.contains key then s.lastFact else s.lastFact + 1 }

section

variable (s : Store) (key : FactKey) (defaults : FactValues) (change : FactValues → FactValues)

/-- Asking for a row is refused by the check alone. It gives the row that is written to, and giving
values to it is the write. -/
theorem exists_upsert_eq : ∃ u : Upserted,
    s.upsert key defaults = (s.checkKey key).map (fun _ ↦ u) ∧ u.row = s.rowFor key defaults ∧
      ∀ values, u.store.assign key values = s.written key defaults fun _ ↦ values := by
  cases hrow : s.facts.get? key with
  | some row =>
    refine ⟨⟨row, false, s⟩, ?_, by simp [rowFor, hrow], fun values ↦ ?_⟩
    · rw [upsert, hrow]
      cases s.checkKey key <;> rfl
    · simp [assign, written, rowFor, hrow, SortedMap.contains]
  | none =>
    -- The row is added with its defaults and then stored once more with its values.
    let row : Row := ⟨s.lastFact + 1, defaults⟩
    refine ⟨⟨row, true, { s with facts := s.facts.insert key row, lastFact := row.id }⟩, ?_,
      by simp [rowFor, hrow, row], fun values ↦ ?_⟩
    · rw [upsert, hrow]
      cases s.checkKey key <;> rfl
    · simp [assign, written, rowFor, hrow, row, SortedMap.contains, SortedMap.insert_insert]

theorem update_eq :
    s.update key defaults change = (s.checkKey key).map fun _ ↦ s.written key defaults change := by
  obtain ⟨u, hu, hrow, hassign⟩ := s.exists_upsert_eq key defaults
  have hstore : u.store.assign key (change u.row.values) = s.written key defaults change := by
    rw [hassign, hrow]
    rfl
  rw [update, hu, ← hstore]
  cases s.checkKey key <;> rfl

theorem put_eq (values : FactValues) :
    s.put key values = (s.checkKey key).map fun _ ↦
      ((s.rowFor key values).id, s.written key values fun _ ↦ values) := by
  obtain ⟨u, hu, hrow, hassign⟩ := s.exists_upsert_eq key values
  rw [put, hu, ← hassign, ← hrow]
  cases s.checkKey key <;> rfl

/-! ## What a write touches -/

theorem find?_written_self :
    (s.written key defaults change).find? key =
      some ⟨(s.rowFor key defaults).id, key, change (s.rowFor key defaults).values⟩ := by
  simp [find?, written, Row.toFact]

variable {key}

theorem find?_written_of_ne {key' : FactKey} (h : key' ≠ key) :
    (s.written key defaults change).find? key' = s.find? key' := by
  simp [find?, written, SortedMap.get?_insert_of_ne _ _ h]

variable {s}

theorem mem_allFacts_of_written {fact : Fact}
    (h : fact ∈ (s.written key defaults change).allFacts) :
    fact.key = key ∨ fact ∈ s.allFacts := by
  have hfind := find?_eq_some_iff.mpr ⟨h, rfl⟩
  by_cases hkey : fact.key = key
  · exact .inl hkey
  · rw [find?_written_of_ne s defaults change hkey] at hfind
    exact .inr (find?_eq_some_iff.mp hfind).1

/-! ## Writing on top -/

/-- No stored fact of the cell of a key is in a newer batch. -/
def NoneNewer (s : Store) (key : FactKey) : Prop :=
  ∀ fact ∈ s.allFacts, fact.cell = key.cell → fact.key.batch ≤ key.batch

theorem IsNewest.noneNewer {fact : Fact} (h : s.IsNewest fact) : s.NoneNewer fact.key := h.newest

theorem NoneNewer.written {key' : FactKey} (h : s.NoneNewer key')
    (hle : key.cell = key'.cell → key.batch ≤ key'.batch) :
    (s.written key defaults change).NoneNewer key' := by
  intro fact hfact hcell
  rcases mem_allFacts_of_written defaults change hfact with hkey | hold
  · rw [Fact.cell, hkey] at hcell
    rw [hkey]
    exact hle hcell
  · exact h fact hold hcell

theorem currentFact?_written_self (h : s.NoneNewer key) :
    (s.written key defaults change).currentFact? key.cell =
      (s.written key defaults change).find? key := by
  have hfind := find?_written_self s key defaults change
  obtain ⟨hmem, hkey⟩ := find?_eq_some_iff.mp hfind
  rw [hfind]
  refine currentFact?_eq_some_iff.mpr ⟨⟨hmem, ?_⟩, congrArg FactKey.cell hkey⟩
  exact h.written defaults change fun _ ↦ Nat.le_refl _

theorem currentFact?_written_of_ne {c : Cell} (h : c ≠ key.cell) :
    (s.written key defaults change).currentFact? c = s.currentFact? c := by
  refine currentFact?_congr fun b ↦ find?_written_of_ne s defaults change ?_
  rintro rfl
  exact h rfl

end

end PlanLedger.Store
