import PlanLedger.Proofs.Store.Invariant

/-!
# What a change of a store leaves alone

Most changes let the contents of a store grow: rows, batches and sessions are added, and rows that
are there get new values under their old numbers. What such a change leaves as it was is said in
several ways, one for each use that is made of stores: nothing is removed, nothing outside a session
is touched, current facts are only restated, rows are only added to one new batch, or rows are only
written in the newest batch of a session. All of this follows from the keys whose rows were written
and from the sessions and batches that were added before.
-/

namespace PlanLedger

namespace Contents

variable {c c' c'' : Contents} {session : SessionId} {keys keys' : FactKey → Prop}

/-! ## Nothing is removed -/

/-- Every row keeps its key and its number, and batches and sessions stay as they are. -/
structure Keeps (c c' : Contents) : Prop where
  rows : ∀ key row, c.facts.get? key = some row →
    ∃ row', c'.facts.get? key = some row' ∧ row'.id = row.id
  batches : ∀ id batch, c.batches.get? id = some batch → c'.batches.get? id = some batch
  sessions : ∀ id session, c.sessions.get? id = some session → c'.sessions.get? id = some session

theorem Keeps.refl (c : Contents) : c.Keeps c :=
  ⟨fun _ row hrow ↦ ⟨row, hrow, rfl⟩, fun _ _ h ↦ h, fun _ _ h ↦ h⟩

theorem Keeps.trans (h : c.Keeps c') (h' : c'.Keeps c'') : c.Keeps c'' := by
  refine ⟨fun key row hrow ↦ ?_, fun id batch hbatch ↦ ?_, fun id session hsession ↦ ?_⟩
  · obtain ⟨row', hrow', hid⟩ := h.rows key row hrow
    obtain ⟨row'', hrow'', hid'⟩ := h'.rows key row' hrow'
    exact ⟨row'', hrow'', hid'.trans hid⟩
  · exact h'.batches id batch (h.batches id batch hbatch)
  · exact h'.sessions id session (h.sessions id session hsession)

/-! ## Nothing outside a session is touched -/

/-- The rows and batches of all other sessions are exactly as they were. -/
structure SameOutside (c c' : Contents) (session : SessionId) : Prop where
  rows : ∀ key, key.session ≠ session → c'.facts.get? key = c.facts.get? key
  batches : ∀ id batch, batch.session ≠ session →
    (c'.batches.get? id = some batch ↔ c.batches.get? id = some batch)

theorem SameOutside.refl (c : Contents) (session : SessionId) : c.SameOutside c session :=
  ⟨fun _ _ ↦ rfl, fun _ _ _ ↦ Iff.rfl⟩

theorem SameOutside.trans (h : c.SameOutside c' session) (h' : c'.SameOutside c'' session) :
    c.SameOutside c'' session where
  rows key hkey := (h'.rows key hkey).trans (h.rows key hkey)
  batches id batch hbatch := (h'.batches id batch hbatch).trans (h.batches id batch hbatch)

theorem SameOutside.of_same {before : Contents} (h : c.SameOutside c' session)
    (hfacts : c.facts = before.facts) (hbatches : c.batches = before.batches) :
    before.SameOutside c' session := by
  obtain ⟨hrows, hkept⟩ := h
  rw [hfacts] at hrows
  rw [hbatches] at hkept
  exact ⟨hrows, hkept⟩

/-! ## Writing rows -/

/-- Rows of some keys were written, which adds them or gives them new values, and nothing else was
done. -/
structure RowsWritten (c c' : Contents) (keys : FactKey → Prop) : Prop where
  others : ∀ key, ¬ keys key → c'.facts.get? key = c.facts.get? key
  rows : ∀ key row, c.facts.get? key = some row →
    ∃ row', c'.facts.get? key = some row' ∧ row'.id = row.id
  batches : c'.batches = c.batches
  sessions : c'.sessions = c.sessions

namespace RowsWritten

theorem refl (c : Contents) (keys : FactKey → Prop) : c.RowsWritten c keys :=
  ⟨fun _ _ ↦ rfl, (Keeps.refl c).rows, rfl, rfl⟩

theorem mono (h : c.RowsWritten c' keys) (hkeys : ∀ key, keys key → keys' key) :
    c.RowsWritten c' keys' :=
  { h with others := fun key hkey ↦ h.others key fun hwritten ↦ hkey (hkeys key hwritten) }

theorem keeps (h : c.RowsWritten c' keys) : c.Keeps c' where
  rows := h.rows
  batches id batch hbatch := by rwa [h.batches]
  sessions id session hsession := by rwa [h.sessions]

theorem trans (h : c.RowsWritten c' keys) (h' : c'.RowsWritten c'' keys) :
    c.RowsWritten c'' keys where
  others key hkey := (h'.others key hkey).trans (h.others key hkey)
  rows := (h.keeps.trans h'.keeps).rows
  batches := h'.batches.trans h.batches
  sessions := h'.sessions.trans h.sessions

theorem sameOutside (h : c.RowsWritten c' keys) (hkeys : ∀ key, keys key → key.session = session) :
    c.SameOutside c' session where
  rows key hkey := h.others key fun hwritten ↦ hkey (hkeys key hwritten)
  batches id batch _ := by rw [h.batches]

end RowsWritten

/-! ## Current facts are restated -/

/-- Some current facts got new values. The rows are those of the same keys with the same numbers, no
batch or session was added or removed, and a row that a newer batch of its cell supersedes is
exactly as it was. -/
structure Restated (c c' : Contents) : Prop where
  rows : ∀ key, (c'.facts.get? key).map Row.id = (c.facts.get? key).map Row.id
  batches : c'.batches = c.batches
  sessions : c'.sessions = c.sessions
  superseded : ∀ (cell : Cell) (older newer : BatchId) (row : Row),
    c.facts.get? (cell.inBatch older) = some row →
      (∃ row', c.facts.get? (cell.inBatch newer) = some row') → older < newer →
        c'.facts.get? (cell.inBatch older) = some row

theorem RowsWritten.restated (h : c.RowsWritten c' keys)
    (hkeys : ∀ key, keys key → (∃ row, c.facts.get? key = some row) ∧
      ∀ batch row, c.facts.get? (key.cell.inBatch batch) = some row → batch ≤ key.batch) :
    c.Restated c' := by
  refine ⟨fun key ↦ ?_, h.batches, h.sessions, fun cell older newer row hrow hnewer hlt ↦ ?_⟩
  · cases hrow : c.facts.get? key with
    | none =>
      -- No row is added, since only keys with a row are written.
      rw [h.others key, hrow]
      intro hwritten
      obtain ⟨row, hrow'⟩ := (hkeys key hwritten).1
      rw [hrow] at hrow'
      cases hrow'
    | some row =>
      obtain ⟨row', hrow', hid⟩ := h.rows key row hrow
      rw [hrow', Option.map_some, Option.map_some, hid]
  · rw [h.others (cell.inBatch older), hrow]
    intro hwritten
    obtain ⟨row', hrow'⟩ := hnewer
    exact absurd ((hkeys _ hwritten).2 newer row' hrow') (Nat.not_le_of_lt hlt)

/-! ## Rows are added to a new batch -/

/-- One batch was added and rows in it, in its session. All rows that there were are exactly as they
were. -/
structure AddsBatch (c c' : Contents) (id : BatchId) (batch : Batch) : Prop where
  fresh : c.batches.get? id = none
  batches : c'.batches = c.batches.insert id batch
  kept : ∀ key row, c.facts.get? key = some row → c'.facts.get? key = some row
  added : ∀ key row, c'.facts.get? key = some row →
    c.facts.get? key = some row ∨ key.batch = id ∧ key.session = batch.session

/-- What a change adds and what it leaves alone shows in the rows and the batches. -/
theorem AddsBatch.of_same {before : Contents} {id : BatchId} {batch : Batch}
    (h : c.AddsBatch c' id batch) (hfacts : c.facts = before.facts)
    (hbatches : c.batches = before.batches) : before.AddsBatch c' id batch := by
  obtain ⟨hfresh, hadded, hkept, hrows⟩ := h
  rw [hbatches] at hfresh hadded
  rw [hfacts] at hkept hrows
  exact ⟨hfresh, hadded, hkept, hrows⟩

/-! ## Rows of the newest batch are written -/

/-- The newest batch of a session has a number. -/
structure IsLatest (c : Contents) (session : SessionId) (id : BatchId) : Prop where
  owned : ∃ batch, c.batches.get? id = some batch ∧ batch.session = session
  newest : ∀ id' batch', c.batches.get? id' = some batch' → batch'.session = session → id' ≤ id

/-- Rows of the newest batch of a session were written under some keys. If the session had no batch,
a first one was added for them. -/
structure WritesLatest (c c' : Contents) (session : SessionId) (keys : List FactKey) : Prop where
  sessions : c'.sessions = c.sessions
  batches : c'.batches = c.batches ∨
    (∀ id batch, c.batches.get? id = some batch → batch.session ≠ session) ∧
      ∃ id, c.batches.get? id = none ∧
        c'.batches = c.batches.insert id { session, action := .delta }
  rows : ∀ key, c'.facts.get? key = c.facts.get? key ∨
    key ∈ keys ∧ c'.IsLatest session key.batch

theorem WritesLatest.refl (c : Contents) (session : SessionId) (keys : List FactKey) :
    c.WritesLatest c session keys :=
  ⟨rfl, .inl rfl, fun _ ↦ .inl rfl⟩

end Contents

/-! ## Stores -/

namespace Store

open Contents

variable {s s' : Store} {session : SessionId} {keys : FactKey → Prop} {c : Contents}

theorem rowsWritten_written (s : Store) (key : FactKey) (defaults : FactValues)
    (change : FactValues → FactValues) :
    s.RowsWritten (s.written key defaults change).toContents (· = key) := by
  refine ⟨fun other hother ↦ ?_, fun key' row hrow ↦ ?_, rfl, rfl⟩
  · exact SortedMap.get?_insert_of_ne _ _ hother
  · by_cases hkey : key' = key
    · -- The row that is there is the one that is written.
      subst hkey
      refine ⟨_, SortedMap.get?_insert_self _ _ _, ?_⟩
      rw [rowFor, hrow]
      rfl
    · exact ⟨row, (SortedMap.get?_insert_of_ne _ _ hkey).trans hrow, rfl⟩

theorem restated_of_isNewest (h : s.RowsWritten c keys)
    (hkeys : ∀ key, keys key → ∃ fact, s.IsNewest fact ∧ fact.key = key) : s.Restated c := by
  refine h.restated fun key hwritten ↦ ?_
  obtain ⟨fact, hnewest, rfl⟩ := hkeys key hwritten
  obtain ⟨batch, hhighest, hfind⟩ := isNewest_iff_find?.mp ⟨hnewest, rfl⟩
  have hbatch : fact.key.batch = batch := congrArg FactKey.batch (find?_eq_some_iff.mp hfind).2
  have hrow (b : BatchId) (row : Row) (hrow : s.facts.get? (fact.cell.inBatch b) = some row) :
      (s.find? (fact.cell.inBatch b)).isSome = true := by
    rw [find?, hrow]
    rfl
  rw [hbatch]
  refine ⟨?_, fun b row h ↦ hhighest.2 b (hrow b row h)⟩
  obtain ⟨row, hstored, -⟩ := Option.map_eq_some_iff.mp (find?_eq_some_iff.mpr ⟨hnewest.mem, rfl⟩)
  exact ⟨row, hstored⟩

/-! ### Adding batches and sessions -/

theorem WellFormed.get?_next_batch (hs : s.WellFormed) :
    s.batches.get? (s.lastBatch + 1) = none := by
  refine Option.eq_none_iff_forall_ne_some.mpr fun batch hbatch ↦ ?_
  exact absurd (hs.contents.batch_le _ batch hbatch) (Nat.not_succ_le_self _)

theorem WellFormed.get?_next_session (hs : s.WellFormed) :
    s.sessions.get? (s.lastSession + 1) = none := by
  refine Option.eq_none_iff_forall_ne_some.mpr fun session hsession ↦ ?_
  exact absurd (hs.contents.session_le _ session hsession) (Nat.not_succ_le_self _)

/-- What a map has under other keys than a free one, it still has after an insertion there. -/
private theorem get?_insert_of_free {ν : Type} {m : SortedMap Nat ν} {k : Nat}
    (hfree : m.get? k = none) (v : ν) {k' : Nat} {v' : ν} (h : m.get? k' = some v') :
    (m.insert k v).get? k' = some v' := by
  refine (SortedMap.get?_insert_of_ne m v ?_).trans h
  rintro rfl
  rw [hfree] at h
  cases h

theorem keeps_withBatch (hs : s.WellFormed) (batch : Batch) :
    s.Keeps (s.withBatch batch).toContents :=
  { Keeps.refl s.toContents with
    batches := fun _ _ h ↦ get?_insert_of_free hs.get?_next_batch batch h }

theorem keeps_withSession (hs : s.WellFormed) (session : Session) :
    s.Keeps (s.withSession (s.lastSession + 1) session).toContents :=
  { Keeps.refl s.toContents with
    sessions := fun _ _ h ↦ get?_insert_of_free hs.get?_next_session session h }

theorem sameOutside_withBatch (hs : s.WellFormed) (batch : Batch) :
    s.SameOutside (s.withBatch batch).toContents batch.session := by
  refine ⟨fun _ _ ↦ rfl, fun id other hother ↦ ?_⟩
  rw [withBatch, SortedMap.get?_insert]
  by_cases hid : id = s.lastBatch + 1
  · -- Under the new number there was nothing, and now there is a batch of the session.
    rw [if_pos hid, hid, hs.get?_next_batch, Option.some_inj]
    exact iff_of_false (fun heq ↦ hother (by rw [heq])) (fun h ↦ by cases h)
  · rw [if_neg hid]

theorem keeps_ensureBatch (hs : s.WellFormed) {found : BatchId × Batch}
    (h : s.ensureBatch session = .ok (found, s')) : s.Keeps s'.toContents := by
  rcases (ensureBatch_eq_ok h).2 with rfl | ⟨-, hcreate⟩
  · exact .refl _
  · obtain ⟨-, -, rfl⟩ := createBatch_eq_ok hcreate
    exact keeps_withBatch hs _

theorem sameOutside_ensureBatch (hs : s.WellFormed) {found : BatchId × Batch}
    (h : s.ensureBatch session = .ok (found, s')) : s.SameOutside s'.toContents session := by
  rcases (ensureBatch_eq_ok h).2 with rfl | ⟨-, hcreate⟩
  · exact .refl _ _
  · obtain ⟨-, -, rfl⟩ := createBatch_eq_ok hcreate
    exact sameOutside_withBatch hs _

theorem addsBatch_of_rowsWritten {batch : Batch} (h : (s.withBatch batch).RowsWritten c keys)
    (hs : s.WellFormed)
    (hkeys : ∀ key, keys key → key.batch = s.lastBatch + 1 ∧ key.session = batch.session) :
    s.AddsBatch c (s.lastBatch + 1) batch := by
  refine ⟨hs.get?_next_batch, h.batches, fun key row hrow ↦ ?_, fun key row hrow ↦ ?_⟩
  · refine (h.others key fun hwritten ↦ ?_).trans hrow
    -- A row lies in a stored batch, and the new one was not stored.
    obtain ⟨stored, hstored, -⟩ := hs.contents.fact_batch key row hrow
    rw [(hkeys key hwritten).1, hs.get?_next_batch] at hstored
    cases hstored
  · by_cases hwritten : keys key
    · exact .inr (hkeys key hwritten)
    · exact .inl ((h.others key hwritten).symm.trans hrow)

/-- Rows that are written to the batch that writing to a session goes to are rows of its newest
batch. -/
theorem writesLatest_of_rowsWritten {found : BatchId × Batch} (h : s'.RowsWritten c keys)
    (hs : s.WellFormed) (hensure : s.ensureBatch session = .ok (found, s'))
    {written : List FactKey} (hkeys : ∀ key, keys key → key ∈ written ∧ key.batch = found.1) :
    s.WritesLatest c session written := by
  obtain ⟨hlatest, hcreated⟩ := ensureBatch_eq_ok hensure
  have hadded : s'.sessions = s.sessions ∧ (s'.batches = s.batches ∨
      (∀ id batch, s.batches.get? id = some batch → batch.session ≠ session) ∧
        s'.batches = s.batches.insert (s.lastBatch + 1) { session, action := .delta }) := by
    rcases hcreated with rfl | ⟨hnone, hcreate⟩
    · exact ⟨rfl, .inl rfl⟩
    · obtain ⟨-, -, rfl⟩ := createBatch_eq_ok hcreate
      refine ⟨rfl, .inr ⟨fun id batch hstored howned ↦ ?_, rfl⟩⟩
      have hmem := mem_batchesOf_iff.mpr ⟨hstored, howned⟩
      rw [hnone] at hmem
      exact absurd hmem List.not_mem_nil
  refine ⟨h.sessions.trans hadded.1, ?_, fun key ↦ ?_⟩
  · rw [h.batches]
    exact hadded.2.imp_right fun hfirst ↦ ⟨hfirst.1, _, hs.get?_next_batch, hfirst.2⟩
  · by_cases hwritten : keys key
    · obtain ⟨hmem, hbatch⟩ := hkeys key hwritten
      refine .inr ⟨hmem, ?_, fun id batch hstored ↦ ?_⟩
      · rw [h.batches, hbatch]
        exact ⟨found.2, hlatest.stored, hlatest.owned⟩
      · rw [h.batches] at hstored
        rw [hbatch]
        exact hlatest.newest id batch hstored
    · refine .inl ((h.others key hwritten).trans ?_)
      rw [facts_ensureBatch hensure]

end Store

end PlanLedger
