import PlanLedger.Proofs.Store.Edits

/-!
# Well-formed stores

The contents of a store are well-formed if every fact lies in a batch of the session that its cell
names, every batch belongs to a session, no two facts share a number, and no number is greater than
the last one given. Every edit keeps this, and so does a unit of work, since what it saves is
well-formed as well. Hence every store that can be reached is well-formed.
-/

namespace PlanLedger

/-- What holds of the contents of every store that can be reached. -/
structure Contents.WellFormed (c : Contents) : Prop where
  /-- A fact lies in a batch of the session of its cell. -/
  fact_batch : ∀ key row, c.facts.get? key = some row →
    ∃ batch, c.batches.get? key.batch = some batch ∧ batch.session = key.session
  batch_session : ∀ id batch, c.batches.get? id = some batch →
    c.sessions.contains batch.session = true
  fact_unique : ∀ key row key' row', c.facts.get? key = some row → c.facts.get? key' = some row' →
    row.id = row'.id → key = key'
  fact_le : ∀ key row, c.facts.get? key = some row → row.id ≤ c.lastFact
  batch_le : ∀ id batch, c.batches.get? id = some batch → id ≤ c.lastBatch
  session_le : ∀ id session, c.sessions.get? id = some session → id ≤ c.lastSession

namespace Store

/-- A store is well-formed if its contents are, and those that its unit of work has saved. -/
structure WellFormed (s : Store) : Prop where
  contents : s.toContents.WellFormed
  saved : ∀ c, s.saved = some c → c.WellFormed

theorem wellFormed_empty : (∅ : Store).WellFormed := by
  have hnone {κ ν : Type} [Ord κ] {k : κ} {v : ν} (h : (∅ : SortedMap κ ν).get? k = some v) :
      False := by
    rw [SortedMap.get?_empty] at h
    cases h
  refine ⟨⟨?_, ?_, ?_, ?_, ?_, ?_⟩, fun c h ↦ by cases h⟩
  · exact fun key row h ↦ (hnone h).elim
  · exact fun id batch h ↦ (hnone h).elim
  · exact fun key row key' row' h ↦ (hnone h).elim
  · exact fun key row h ↦ (hnone h).elim
  · exact fun id batch h ↦ (hnone h).elim
  · exact fun id session h ↦ (hnone h).elim

theorem WellFormed.exists_batch {s : Store} (hs : s.WellFormed) {fact : Fact}
    (h : fact ∈ s.allFacts) : ∃ batch,
      s.batches.get? fact.key.batch = some batch ∧ batch.session = fact.cell.session := by
  obtain ⟨⟨key, row⟩, hrow, rfl⟩ := List.mem_map.mp h
  exact hs.contents.fact_batch key row (SortedMap.get?_eq_some_iff.mpr hrow)

/-! ## Edits -/

theorem WellFormed.withSession {s : Store} (hs : s.WellFormed) (id : SessionId)
    (session : Session) : (s.withSession id session).WellFormed := by
  obtain ⟨hc, hsaved⟩ := hs
  refine ⟨{ hc with batch_session := ?_, session_le := ?_ }, hsaved⟩
  · intro batchId batch hbatch
    have hold := SortedMap.contains_iff.mp (hc.batch_session batchId batch hbatch)
    rw [SortedMap.mem_keys_iff] at hold
    rw [SortedMap.contains_iff, SortedMap.mem_keys_iff]
    simp only [Store.withSession, SortedMap.get?_insert]
    by_cases h : batch.session = id
    · exact ⟨session, if_pos h⟩
    · rw [if_neg h]
      exact hold
  · intro sessionId stored hstored
    simp only [Store.withSession, SortedMap.get?_insert] at hstored ⊢
    by_cases h : sessionId = id
    · rw [h]
      exact Nat.le_max_right _ _
    · rw [if_neg h] at hstored
      exact Nat.le_trans (hc.session_le sessionId stored hstored) (Nat.le_max_left _ _)

theorem WellFormed.withBatch {s : Store} (hs : s.WellFormed) {batch : Batch}
    (hsession : s.sessions.contains batch.session = true) : (s.withBatch batch).WellFormed := by
  obtain ⟨hc, hsaved⟩ := hs
  refine ⟨{ hc with fact_batch := ?_, batch_session := ?_, batch_le := ?_ }, hsaved⟩
  · intro key row hrow
    obtain ⟨found, hfound, howned⟩ := hc.fact_batch key row hrow
    -- The number of the new batch is free, so the batch of the fact stays where it is.
    have hne : key.batch ≠ s.lastBatch + 1 :=
      Nat.ne_of_lt (Nat.lt_succ_of_le (hc.batch_le _ _ hfound))
    exact ⟨found, (SortedMap.get?_insert_of_ne _ _ hne).trans hfound, howned⟩
  · intro id found hfound
    simp only [Store.withBatch, SortedMap.get?_insert] at hfound
    by_cases h : id = s.lastBatch + 1
    · rw [if_pos h, Option.some_inj] at hfound
      rw [← hfound]
      exact hsession
    · rw [if_neg h] at hfound
      exact hc.batch_session id found hfound
  · intro id found hfound
    simp only [Store.withBatch, SortedMap.get?_insert] at hfound ⊢
    by_cases h : id = s.lastBatch + 1
    · exact Nat.le_of_eq h
    · rw [if_neg h] at hfound
      exact Nat.le_succ_of_le (hc.batch_le id found hfound)

private theorem rowFor_id (s : Store) (key : FactKey) (defaults : FactValues) :
    (∃ row, s.facts.get? key = some row ∧ (s.rowFor key defaults).id = row.id) ∨
      s.facts.get? key = none ∧ (s.rowFor key defaults).id = s.lastFact + 1 := by
  rw [rowFor]
  cases h : s.facts.get? key with
  | some row => exact .inl ⟨row, rfl, rfl⟩
  | none => exact .inr ⟨rfl, rfl⟩

private theorem id_ne_rowFor_id {s : Store} (hc : s.toContents.WellFormed) {key key' : FactKey}
    (defaults : FactValues) {row' : Row} (hne : key' ≠ key)
    (hrow' : s.facts.get? key' = some row') : row'.id ≠ (s.rowFor key defaults).id := by
  intro hid
  rcases rowFor_id s key defaults with ⟨row, hrow, heq⟩ | ⟨-, heq⟩
  · exact hne (hc.fact_unique key' row' key row hrow' hrow (hid.trans heq))
  · -- A row that is added has a greater number than all others.
    have hle := hc.fact_le key' row' hrow'
    rw [hid, heq] at hle
    exact absurd hle (Nat.not_succ_le_self _)

private theorem rowFor_id_le {s : Store} (hc : s.toContents.WellFormed) (key : FactKey)
    (defaults : FactValues) (change : FactValues → FactValues) :
    s.lastFact ≤ (s.written key defaults change).lastFact ∧
      (s.rowFor key defaults).id ≤ (s.written key defaults change).lastFact := by
  rcases rowFor_id s key defaults with ⟨row, hrow, heq⟩ | ⟨hrow, heq⟩
  · have hsame : (s.written key defaults change).lastFact = s.lastFact := by
      simp [Store.written, SortedMap.contains, hrow]
    rw [hsame, heq]
    exact ⟨Nat.le_refl _, hc.fact_le key row hrow⟩
  · have hnext : (s.written key defaults change).lastFact = s.lastFact + 1 := by
      simp [Store.written, SortedMap.contains, hrow]
    rw [hnext, heq]
    exact ⟨Nat.le_succ _, Nat.le_refl _⟩

theorem WellFormed.written {s : Store} (hs : s.WellFormed) {key : FactKey}
    (hkey : s.checkKey key = .ok ()) (defaults : FactValues) (change : FactValues → FactValues) :
    (s.written key defaults change).WellFormed := by
  obtain ⟨hc, hsaved⟩ := hs
  obtain ⟨hlast, hid_le⟩ := rowFor_id_le hc key defaults change
  refine ⟨{ hc with fact_batch := ?_, fact_unique := ?_, fact_le := ?_ }, hsaved⟩
  · intro key' row' hrow'
    by_cases h : key' = key
    · subst h
      exact checkKey_eq_ok_iff.mp hkey
    · simp only [Store.written, SortedMap.get?_insert_of_ne _ _ h] at hrow'
      exact hc.fact_batch key' row' hrow'
  · intro key₁ row₁ key₂ row₂ hrow₁ hrow₂ hid
    simp only [Store.written, SortedMap.get?_insert] at hrow₁ hrow₂
    -- Of two keys, both, one or none may be the one that is written.
    by_cases h₁ : key₁ = key <;> by_cases h₂ : key₂ = key
    · rw [h₁, h₂]
    · rw [if_pos h₁, Option.some_inj] at hrow₁
      rw [if_neg h₂] at hrow₂
      subst hrow₁
      exact absurd hid.symm (id_ne_rowFor_id hc defaults h₂ hrow₂)
    · rw [if_neg h₁] at hrow₁
      rw [if_pos h₂, Option.some_inj] at hrow₂
      subst hrow₂
      exact absurd hid (id_ne_rowFor_id hc defaults h₁ hrow₁)
    · rw [if_neg h₁] at hrow₁
      rw [if_neg h₂] at hrow₂
      exact hc.fact_unique key₁ row₁ key₂ row₂ hrow₁ hrow₂ hid
  · intro key' row' hrow'
    simp only [Store.written, SortedMap.get?_insert] at hrow'
    by_cases h : key' = key
    · rw [if_pos h, Option.some_inj] at hrow'
      subst hrow'
      exact hid_le
    · rw [if_neg h] at hrow'
      exact Nat.le_trans (hc.fact_le key' row' hrow') hlast

theorem WellFormed.deleteWhere {s : Store} (hs : s.WellFormed) (f : Filter) (scope : Scope) :
    (s.deleteWhere f scope).WellFormed := by
  obtain ⟨hc, hsaved⟩ := hs
  have hold : ∀ key row, (s.deleteWhere f scope).facts.get? key = some row →
      s.facts.get? key = some row := by
    intro key row h
    rw [Store.deleteWhere, SortedMap.get?_filter] at h
    exact (Option.filter_eq_some_iff.mp h).1
  refine ⟨{ hc with fact_batch := ?_, fact_unique := ?_, fact_le := ?_ }, hsaved⟩
  · exact fun key row h ↦ hc.fact_batch key row (hold key row h)
  · exact fun key row key' row' h h' ↦
      hc.fact_unique key row key' row' (hold key row h) (hold key' row' h')
  · exact fun key row h ↦ hc.fact_le key row (hold key row h)

theorem WellFormed.edit {s s' : Store} (hs : s.WellFormed) (h : Edit s s') : s'.WellFormed := by
  cases h with
  | keep => exact hs
  | addSession id session _ => exact hs.withSession id session
  | addBatch batch hsession => exact hs.withBatch hsession
  | write key defaults change hkey => exact hs.written hkey defaults change
  | delete f scope => exact hs.deleteWhere f scope

theorem WellFormed.editedTo {s s' : Store} (hs : s.WellFormed) (h : EditedTo s s') :
    s'.WellFormed := by
  induction h with
  | refl => exact hs
  | tail _ hlast ih => exact ih.edit hlast

end Store

end PlanLedger
