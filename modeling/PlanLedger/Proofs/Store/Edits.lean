import Mathlib.Logic.Relation
import PlanLedger.Proofs.Refusal
import PlanLedger.Proofs.Store.Writing

/-!
# Edits of a store

Every operation on what a store holds, if it is not refused, is one of five edits: it changes
nothing, adds a session, adds a batch, writes a row, or deletes rows. Each edit carries what the
operation has checked. What edits keep is therefore kept by all operations, one after the other; in
particular no edit touches the contents that a unit of work has saved.
-/

namespace PlanLedger

namespace Store

/-! ## The kinds of edits -/

def withSession (s : Store) (id : SessionId) (session : Session) : Store :=
  { s with sessions := s.sessions.insert id session, lastSession := Nat.max s.lastSession id }

def withBatch (s : Store) (batch : Batch) : Store :=
  { s with batches := s.batches.insert (s.lastBatch + 1) batch, lastBatch := s.lastBatch + 1 }

/-- What an operation on the contents of a store does. -/
inductive Edit (s : Store) : Store → Prop
  | keep : Edit s s
  | addSession (id : SessionId) (session : Session)
      (h : id = s.lastSession + 1 ∨ s.sessions.contains id = false) :
      Edit s (s.withSession id session)
  | addBatch (batch : Batch) (h : s.sessions.contains batch.session = true) :
      Edit s (s.withBatch batch)
  | write (key : FactKey) (defaults : FactValues) (change : FactValues → FactValues)
      (h : s.checkKey key = .ok ()) : Edit s (s.written key defaults change)
  | delete (f : Filter) (scope : Scope) : Edit s (s.deleteWhere f scope)

abbrev EditedTo : Store → Store → Prop := Relation.ReflTransGen Edit

/-! ## Sessions -/

theorem session_eq_ok_iff {s : Store} {id : SessionId} {session : Session} :
    s.session id = .ok session ↔ s.sessions.get? id = some session := by
  rw [Store.session]
  cases s.sessions.get? id with
  | none => simp
  | some found => simp

theorem contains_of_session {s : Store} {id : SessionId} {session : Session}
    (h : s.session id = .ok session) : s.sessions.contains id = true := by
  rw [SortedMap.contains, session_eq_ok_iff.mp h]
  rfl

theorem createSession_eq (s : Store) (session : Session) :
    s.createSession session = (s.lastSession + 1, s.withSession (s.lastSession + 1) session) := by
  have hmax : Nat.max s.lastSession (s.lastSession + 1) = s.lastSession + 1 :=
    Nat.max_eq_right (Nat.le_succ _)
  rw [createSession, withSession, hmax]

theorem edit_createSession (s : Store) (session : Session) :
    Edit s (s.createSession session).2 := by
  rw [createSession_eq]
  exact .addSession _ session (.inl rfl)

theorem edit_insertSession {s s' : Store} {id : SessionId} {session : Session}
    (h : s.insertSession id session = .ok s') : Edit s s' := by
  rw [insertSession] at h
  by_cases hid : s.sessions.contains id = true
  · rw [if_pos hid] at h
    cases h
  · rw [if_neg hid] at h
    cases h
    exact .addSession id session (.inr (Bool.eq_false_iff.mpr hid))

theorem edit_findOrCreateSession (s : Store) (version year : DimId) :
    Edit s (s.findOrCreateSession version year).2 := by
  rw [findOrCreateSession]
  cases s.findSession? version year with
  | some found => exact .keep
  | none => exact s.edit_createSession _

/-- The session of a version and year was there, or a nameless one was added under the next
number. -/
theorem findOrCreateSession_eq {s s' : Store} {version year : DimId} {id : SessionId}
    {session : Session} (h : s.findOrCreateSession version year = ((id, session), s')) :
    s'.sessions.get? id = some session ∧ session.version = version ∧ session.year = year ∧
      (s' = s ∨ id = s.lastSession + 1 ∧ session = { version, year } ∧
        s' = s.withSession id session) := by
  rw [findOrCreateSession] at h
  cases hfound : s.findSession? version year with
  | some found =>
    rw [hfound] at h
    cases h
    rw [findSession?] at hfound
    have hstored : s.sessions.get? id = some session :=
      SortedMap.get?_eq_some_iff.mpr (List.mem_of_find?_eq_some hfound)
    have hsame : session.version = version ∧ session.year = year := by
      simpa using List.find?_some hfound
    exact ⟨hstored, hsame.1, hsame.2, .inl rfl⟩
  | none =>
    rw [hfound] at h
    dsimp only at h
    rw [createSession_eq] at h
    cases h
    exact ⟨SortedMap.get?_insert_self _ _ _, rfl, rfl, .inr ⟨rfl, rfl, rfl⟩⟩

theorem facts_findOrCreateSession (s : Store) (version year : DimId) :
    (s.findOrCreateSession version year).2.facts = s.facts := by
  rw [findOrCreateSession]
  cases s.findSession? version year <;> rfl

/-! ## Batches -/

theorem createBatch_eq (s : Store) (batch : Batch) :
    s.createBatch batch =
      (s.session batch.session).map fun _ ↦ (s.lastBatch + 1, s.withBatch batch) := by
  rw [createBatch]
  cases s.session batch.session <;> rfl

theorem createBatch_eq_ok {s s' : Store} {batch : Batch} {id : BatchId}
    (h : s.createBatch batch = .ok (id, s')) :
    s.sessions.contains batch.session = true ∧ id = s.lastBatch + 1 ∧ s' = s.withBatch batch := by
  rw [createBatch_eq] at h
  obtain ⟨session, hsession, hresult⟩ := map_eq_ok.mp h
  cases hresult
  exact ⟨contains_of_session hsession, rfl, rfl⟩

theorem edit_createBatch {s s' : Store} {batch : Batch} {id : BatchId}
    (h : s.createBatch batch = .ok (id, s')) : Edit s s' := by
  obtain ⟨hsession, -, rfl⟩ := createBatch_eq_ok h
  exact .addBatch batch hsession

/-- The newest batch of a session. -/
structure IsLatestBatch (s : Store) (session : SessionId) (id : BatchId) (batch : Batch) :
    Prop where
  stored : s.batches.get? id = some batch
  owned : batch.session = session
  newest : ∀ id' batch', s.batches.get? id' = some batch' → batch'.session = session → id' ≤ id

theorem mem_batchesOf_iff {s : Store} {session : SessionId} {id : BatchId} {batch : Batch} :
    (id, batch) ∈ s.batchesOf session ↔
      s.batches.get? id = some batch ∧ batch.session = session := by
  rw [batchesOf, List.mem_filter, SortedMap.get?_eq_some_iff]
  simp

theorem isLatestBatch_of_getLast? {s : Store} {session : SessionId} {id : BatchId} {batch : Batch}
    (h : (s.batchesOf session).getLast? = some (id, batch)) : s.IsLatestBatch session id batch := by
  obtain ⟨earlier, hearlier⟩ := List.getLast?_eq_some_iff.mp h
  have hmem : (id, batch) ∈ s.batchesOf session := by simp [hearlier]
  obtain ⟨hstored, howned⟩ := mem_batchesOf_iff.mp hmem
  refine ⟨hstored, howned, fun id' batch' hstored' howned' ↦ ?_⟩
  have hmem' := mem_batchesOf_iff.mpr ⟨hstored', howned'⟩
  -- The batches of a session are listed by their numbers.
  have hsorted : (s.batchesOf session).Pairwise fun a b ↦ compare a.1 b.1 = .lt :=
    s.batches.increasing.filter _
  rw [hearlier] at hmem' hsorted
  rcases List.mem_append.mp hmem' with hbefore | hlast
  · have hlt := (List.pairwise_append.mp hsorted).2.2 _ hbefore _ List.mem_cons_self
    exact Nat.le_of_lt (Nat.compare_eq_lt.mp hlt)
  · exact Nat.le_of_eq (congrArg Prod.fst (List.mem_singleton.mp hlast))

theorem latestBatch_eq (s : Store) (session : SessionId) :
    s.latestBatch session =
      (s.session session).map fun _ ↦ (s.batchesOf session).getLast? := by
  rw [latestBatch]
  cases s.session session <;> rfl

theorem isLatestBatch_of_latestBatch {s : Store} {session : SessionId} {id : BatchId}
    {batch : Batch} (h : s.latestBatch session = .ok (some (id, batch))) :
    s.IsLatestBatch session id batch := by
  rw [latestBatch_eq] at h
  obtain ⟨stored, -, hlast⟩ := map_eq_ok.mp h
  exact isLatestBatch_of_getLast? hlast

theorem latestBatch_of_isLatestBatch {s : Store} {id : SessionId} {session : Session}
    {latest : BatchId} {batch : Batch} (hsession : s.session id = .ok session)
    (h : s.IsLatestBatch id latest batch) : s.latestBatch id = .ok (some (latest, batch)) := by
  have hmem : (latest, batch) ∈ s.batchesOf id := mem_batchesOf_iff.mpr ⟨h.stored, h.owned⟩
  obtain ⟨⟨last, lastBatch⟩, hlast⟩ :=
    Option.isSome_iff_exists.mp (List.getLast?_isSome.mpr (List.ne_nil_of_mem hmem))
  have hnewest := isLatestBatch_of_getLast? hlast
  -- Each of the two is as new as the other one.
  have heq : last = latest := Nat.le_antisymm
    (h.newest last lastBatch hnewest.stored hnewest.owned)
    (hnewest.newest latest batch h.stored h.owned)
  subst heq
  have hbatch : lastBatch = batch := Option.some_inj.mp (hnewest.stored.symm.trans h.stored)
  rw [latestBatch_eq, hsession, hlast, hbatch]
  rfl

private theorem isLatestBatch_withBatch {s : Store} {session : SessionId}
    (hnone : (s.batchesOf session).getLast? = none) :
    (s.withBatch { session, action := .delta }).IsLatestBatch session (s.lastBatch + 1)
      { session, action := .delta } := by
  refine ⟨SortedMap.get?_insert_self _ _ _, rfl, fun id batch hstored howned ↦ ?_⟩
  rw [withBatch, SortedMap.get?_insert] at hstored
  by_cases hid : id = s.lastBatch + 1
  · exact Nat.le_of_eq hid
  · -- Any other batch of the session was there before, but there was none.
    rw [if_neg hid] at hstored
    have hmem := mem_batchesOf_iff.mpr ⟨hstored, howned⟩
    rw [List.getLast?_eq_none_iff.mp hnone] at hmem
    exact absurd hmem List.not_mem_nil

/-- The batch that writing to a session goes to is the newest one of the session. It was there
already, or the session had none and it was created. -/
theorem ensureBatch_eq_ok {s s' : Store} {session : SessionId} {found : BatchId × Batch}
    (h : s.ensureBatch session = .ok (found, s')) :
    s'.IsLatestBatch session found.1 found.2 ∧
      (s' = s ∨ s.batchesOf session = [] ∧
        s.createBatch { session, action := .delta } = .ok (found.1, s')) := by
  rw [ensureBatch] at h
  obtain ⟨latest, hlatest, h⟩ := bind_eq_ok.mp h
  rw [latestBatch_eq] at hlatest
  obtain ⟨stored, -, hlast⟩ := map_eq_ok.mp hlatest
  cases latest with
  | some found' =>
    cases h
    exact ⟨isLatestBatch_of_getLast? hlast, .inl rfl⟩
  | none =>
    obtain ⟨⟨id, created⟩, hcreate, h⟩ := bind_eq_ok.mp h
    cases h
    refine ⟨?_, .inr ⟨List.getLast?_eq_none_iff.mp hlast, hcreate⟩⟩
    obtain ⟨-, rfl, rfl⟩ := createBatch_eq_ok hcreate
    exact isLatestBatch_withBatch hlast

theorem exists_ensureBatch {s : Store} {id : SessionId} {session : Session}
    (h : s.session id = .ok session) : ∃ found, s.ensureBatch id = .ok found := by
  have hcreate : s.createBatch { session := id, action := .delta } =
      .ok (s.lastBatch + 1, s.withBatch { session := id, action := .delta }) := by
    rw [createBatch_eq, h]
    rfl
  rw [ensureBatch, latestBatch_eq, h]
  cases (s.batchesOf id).getLast? with
  | some latest => exact ⟨(latest, s), rfl⟩
  | none => exact ⟨_, bind_eq_ok.mpr ⟨none, rfl, bind_eq_ok.mpr ⟨_, hcreate, rfl⟩⟩⟩

theorem edit_ensureBatch {s s' : Store} {session : SessionId} {found : BatchId × Batch}
    (h : s.ensureBatch session = .ok (found, s')) : Edit s s' := by
  rcases (ensureBatch_eq_ok h).2 with rfl | ⟨-, hcreate⟩
  · exact .keep
  · exact edit_createBatch hcreate

theorem facts_ensureBatch {s s' : Store} {session : SessionId} {found : BatchId × Batch}
    (h : s.ensureBatch session = .ok (found, s')) : s'.facts = s.facts := by
  rcases (ensureBatch_eq_ok h).2 with rfl | ⟨-, hcreate⟩
  · rfl
  · obtain ⟨-, -, rfl⟩ := createBatch_eq_ok hcreate
    rfl

theorem sessions_ensureBatch {s s' : Store} {session : SessionId} {found : BatchId × Batch}
    (h : s.ensureBatch session = .ok (found, s')) : s'.sessions = s.sessions := by
  rcases (ensureBatch_eq_ok h).2 with rfl | ⟨-, hcreate⟩
  · rfl
  · obtain ⟨-, -, rfl⟩ := createBatch_eq_ok hcreate
    rfl

/-! ## Facts -/

theorem update_eq_ok {s s' : Store} {key : FactKey} {defaults : FactValues}
    {change : FactValues → FactValues} (h : s.update key defaults change = .ok s') :
    s.checkKey key = .ok () ∧ s' = s.written key defaults change := by
  rw [update_eq] at h
  obtain ⟨_, hcheck, hresult⟩ := map_eq_ok.mp h
  exact ⟨hcheck, hresult.symm⟩

theorem put_eq_ok {s s' : Store} {key : FactKey} {values : FactValues} {id : FactId}
    (h : s.put key values = .ok (id, s')) :
    s.checkKey key = .ok () ∧ s' = s.written key values fun _ ↦ values := by
  rw [put_eq] at h
  obtain ⟨_, hcheck, hresult⟩ := map_eq_ok.mp h
  exact ⟨hcheck, (congrArg Prod.snd hresult).symm⟩

theorem edit_update {s s' : Store} {key : FactKey} {defaults : FactValues}
    {change : FactValues → FactValues} (h : s.update key defaults change = .ok s') : Edit s s' := by
  obtain ⟨hcheck, rfl⟩ := update_eq_ok h
  exact .write key defaults change hcheck

theorem edit_put {s s' : Store} {key : FactKey} {values : FactValues} {id : FactId}
    (h : s.put key values = .ok (id, s')) : Edit s s' := by
  obtain ⟨hcheck, rfl⟩ := put_eq_ok h
  exact .write key values _ hcheck

/-! ## What edits keep -/

theorem Edit.saved_eq {s s' : Store} (h : Edit s s') : s'.saved = s.saved := by
  cases h <;> rfl

/-- Edits do not touch what a unit of work has saved. -/
theorem EditedTo.saved_eq {s s' : Store} (h : EditedTo s s') : s'.saved = s.saved := by
  induction h with
  | refl => rfl
  | tail _ hlast ih => exact hlast.saved_eq.trans ih

end Store

end PlanLedger
