import PlanLedger.Proofs.Store.Agreement
import PlanLedger.Proofs.Store.History

/-!
# Stores that facts are loaded into

A fact that is loaded goes to the newest batch of its session, which is added with the first of
them, and takes the place of the fact that its cell has there. So a session has one batch if it has
facts and none otherwise, and every cell has one fact, with the values that were loaded last.
-/

namespace PlanLedger.Store

variable {s s' : Store} {loaded : SortedMap Cell FactValues} {c : Cell} {values : FactValues}

/-! ## The batch of a session -/

/-- Where a session has one batch at most, the batch that is ensured is its only one, and other
sessions keep theirs. -/
theorem batchesOf_ensureBatch (hs : s.WellFormed) {session : SessionId}
    (hone : (s.batchesOf session).length ≤ 1) {found : BatchId × Batch}
    (h : s.ensureBatch session = .ok (found, s')) : s'.batchesOf session = [found] ∧
      ∀ other, other ≠ session → s'.batchesOf other = s.batchesOf other := by
  obtain ⟨hlatest, hcase⟩ := ensureBatch_eq_ok h
  have hmem : found ∈ s'.batchesOf session :=
    mem_batchesOf_iff.mpr ⟨hlatest.stored, hlatest.owned⟩
  rcases hcase with rfl | ⟨hnone, hcreate⟩
  · obtain ⟨only, honly⟩ :=
      List.length_eq_one_iff.mp (Nat.le_antisymm hone (List.length_pos_of_mem hmem))
    rw [honly, List.mem_singleton] at hmem
    exact ⟨hmem ▸ honly, fun _ _ ↦ rfl⟩
  · have hadded (other : SessionId) : s'.batchesOf other = s.batchesOf other ++
        [(found.1, { session, action := .delta : Batch })].filter fun e ↦ e.2.session == other := by
      rw [batchesOf, batches_createBatch hs hcreate, List.filter_append]
      rfl
    constructor
    · rw [hadded, hnone, List.nil_append, List.filter_cons_of_pos (by simp), List.filter_nil,
        List.mem_singleton] at hmem
      rw [hadded, hnone, List.nil_append, List.filter_cons_of_pos (by simp), List.filter_nil, hmem]
    · intro other hother
      rw [hadded, List.filter_cons_of_neg (by simpa using hother.symm), List.filter_nil,
        List.append_nil]

theorem batch_of_values? (hs : s.WellFormed) {found : BatchId × Batch}
    (honly : s.batchesOf c.session = [found]) {batch : BatchId}
    (h : s.values? (c.inBatch batch) = some values) : batch = found.1 := by
  rw [values?, find?, Option.map_map, Option.map_eq_some_iff] at h
  obtain ⟨row, hrow, -⟩ := h
  obtain ⟨stored, hstored, howned⟩ := hs.contents.fact_batch _ _ hrow
  have hmem : (batch, stored) ∈ s.batchesOf c.session := mem_batchesOf_iff.mpr ⟨hstored, howned⟩
  rw [honly, List.mem_singleton] at hmem
  rw [← hmem]

theorem values?_of_mem {fact : Fact} (h : fact ∈ s.allFacts) :
    s.values? (fact.cell.inBatch fact.key.batch) = some fact.values := by
  have hfind : s.find? (fact.cell.inBatch fact.key.batch) = some fact :=
    find?_eq_some_iff.mpr ⟨h, rfl⟩
  rw [values?, hfind]
  rfl

/-! ## What is held -/

/-- A store holds the values of some cells: they are its only facts, and the only batches are those
of their sessions, one for each. -/
structure Holds (s : Store) (loaded : SortedMap Cell FactValues) : Prop where
  wellFormed : s.WellFormed
  values_iff : ∀ c values, loaded.get? c = some values ↔
    ∃ batch, s.values? (c.inBatch batch) = some values
  one_batch : ∀ c ∈ loaded.keys, ∃ found, s.batchesOf c.session = [found]
  no_batch : ∀ session, (∀ c ∈ loaded.keys, c.session ≠ session) → s.batchesOf session = []

namespace Holds

theorem empty : (∅ : Store).Holds ∅ := by
  refine ⟨wellFormed_empty, fun c values ↦ iff_of_false nofun ?_, nofun, fun _ _ ↦ rfl⟩
  rintro ⟨batch, h⟩
  cases h

theorem withSession (h : s.Holds loaded) (id : SessionId) (session : Session) :
    (s.withSession id session).Holds loaded :=
  ⟨h.wellFormed.withSession id session, h.values_iff, h.one_batch, h.no_batch⟩

variable (h : s.Holds loaded)

include h

theorem length_batchesOf_le (session : SessionId) : (s.batchesOf session).length ≤ 1 := by
  by_cases hkey : ∃ c ∈ loaded.keys, c.session = session
  · obtain ⟨c, hc, rfl⟩ := hkey
    obtain ⟨found, hfound⟩ := h.one_batch c hc
    rw [hfound]
    exact Nat.le_refl 1
  · rw [h.no_batch session fun c hc heq ↦ hkey ⟨c, hc, heq⟩]
    exact Nat.zero_le 1

/-- **One more fact.** A fact that is loaded is held, in place of the values that its cell had. -/
theorem load {found : BatchId × Batch} (hensure : s.ensureBatch c.session = .ok (found, s'))
    (hcheck : s'.checkKey (c.inBatch found.1) = .ok ()) :
    (s'.written (c.inBatch found.1) values fun _ ↦ values).Holds (loaded.insert c values) := by
  obtain ⟨hown, hothers⟩ :=
    batchesOf_ensureBatch h.wellFormed (h.length_batchesOf_le c.session) hensure
  have hwell : (s'.written (c.inBatch found.1) values fun _ ↦ values).WellFormed :=
    (h.wellFormed.edit (edit_ensureBatch hensure)).written hcheck values _
  have hvalues (key : FactKey) :
      (s'.written (c.inBatch found.1) values fun _ ↦ values).values? key =
        if key = c.inBatch found.1 then some values else s.values? key := by
    rw [values?_written, values?, values?, find?, find?, facts_ensureBatch hensure]
  have hkeys (c' : Cell) : c' ∈ (loaded.insert c values).keys ↔ c' = c ∨ c' ∈ loaded.keys := by
    rw [SortedMap.mem_keys_iff, SortedMap.mem_keys_iff, SortedMap.get?_insert]
    by_cases hc : c' = c
    · simp [hc]
    · simp [hc]
  refine ⟨hwell, fun c' values' ↦ ?_, fun c' hc' ↦ ?_, fun session hnone ↦ ?_⟩
  · rw [SortedMap.get?_insert]
    by_cases hc : c' = c
    · subst hc
      rw [if_pos rfl]
      constructor
      · intro heq
        exact ⟨found.1, by rw [hvalues, if_pos rfl, heq]⟩
      · rintro ⟨batch, hbatch⟩
        -- The cell has its values in the batch that was written to.
        obtain rfl : batch = found.1 := batch_of_values? hwell hown hbatch
        rwa [hvalues, if_pos rfl] at hbatch
    · rw [if_neg hc, h.values_iff]
      refine exists_congr fun batch ↦ ?_
      rw [hvalues, if_neg fun heq ↦ hc (congrArg FactKey.cell heq)]
  · by_cases hsession : c'.session = c.session
    · exact ⟨found, hsession ▸ hown⟩
    · have hold : c' ∈ loaded.keys :=
        ((hkeys c').mp hc').resolve_left fun heq ↦ hsession (heq ▸ rfl)
      obtain ⟨found', hfound'⟩ := h.one_batch c' hold
      exact ⟨found', (hothers _ hsession).trans hfound'⟩
  · have hne : session ≠ c.session := (hnone c ((hkeys c).mpr (.inl rfl))).symm
    exact (hothers session hne).trans
      (h.no_batch session fun c' hc' ↦ hnone c' ((hkeys c').mpr (.inr hc')))

/-! ### Reading -/

theorem map_values_currentFact? (c : Cell) :
    (s.currentFact? c).map Fact.values = loaded.get? c := by
  cases hcurrent : s.currentFact? c with
  | some fact =>
    obtain ⟨batch, -, hfind⟩ := isNewest_iff_find?.mp (currentFact?_eq_some_iff.mp hcurrent)
    exact ((h.values_iff c fact.values).mpr ⟨batch, by rw [values?, hfind]; rfl⟩).symm
  | none =>
    refine (Option.eq_none_iff_forall_ne_some.mpr fun values hvalues ↦ ?_).symm
    obtain ⟨batch, hbatch⟩ := (h.values_iff c values).mp hvalues
    rw [values?, currentFact?_eq_none_iff_find?.mp hcurrent batch] at hbatch
    cases hbatch

theorem mem_keys_iff : c ∈ loaded.keys ↔ ∃ fact ∈ s.allFacts, fact.cell = c := by
  rw [SortedMap.mem_keys_iff]
  constructor
  · rintro ⟨values, hvalues⟩
    obtain ⟨batch, hbatch⟩ := (h.values_iff c values).mp hvalues
    obtain ⟨fact, hfind, -⟩ := Option.map_eq_some_iff.mp hbatch
    obtain ⟨hmem, hkey⟩ := find?_eq_some_iff.mp hfind
    exact ⟨fact, hmem, congrArg FactKey.cell hkey⟩
  · rintro ⟨fact, hfact, rfl⟩
    exact ⟨fact.values, (h.values_iff _ _).mpr ⟨fact.key.batch, values?_of_mem hfact⟩⟩

theorem nodup_cells : (s.allFacts.map Fact.cell).Nodup := by
  refine List.Nodup.map_on (fun fact hfact fact' hfact' hcell ↦ ?_)
    (List.Nodup.of_map _ h.wellFormed.nodup_ids)
  obtain ⟨found, hfound⟩ := h.one_batch fact.cell (h.mem_keys_iff.mpr ⟨fact, hfact, rfl⟩)
  have hsame : fact.key.batch = fact'.key.batch := by
    rw [batch_of_values? h.wellFormed hfound (values?_of_mem hfact),
      batch_of_values? h.wellFormed (hcell ▸ hfound) (values?_of_mem hfact')]
  refine eq_of_key_eq hfact hfact' ?_
  calc
    fact.key = fact.cell.inBatch fact.key.batch := rfl
    _ = fact'.cell.inBatch fact'.key.batch := by rw [hcell, hsame]
    _ = fact'.key := rfl

end Holds

end PlanLedger.Store
