import Mathlib.Data.List.Nodup
import PlanLedger.Proofs.Store.Reachable

/-!
# The history of a store

A history is a sequence of calls on the empty store. Beside the store it keeps which batches the
calls have created, in the order of their creation; a roll-back forgets those that were created
since its unit of work began. This record does not look at numbers, and a roll-back turns the
numbers of batches back. Still it always agrees with the store, where the batches are listed by
their numbers: the newest batch of a session, which is looked up by its number, is the one created
last.
-/

namespace PlanLedger

namespace Store

/-- The batch that a call creates, with the number it is given. -/
def createdBy (s : Store) : StoreCall → List (BatchId × Batch)
  | .createBatch batch =>
    match s.createBatch batch with
    | .ok (id, _) => [(id, batch)]
    | .error _ => []
  | .ensureBatch session =>
    match s.latestBatch session, s.ensureBatch session with
    | .ok none, .ok (found, _) => [found]
    | _, _ => []
  | _ => []

end Store

/-- A store and the batches that were created on the way to it. -/
structure History where
  store : Store := ∅
  /-- The batches in the order of their creation. -/
  created : List (BatchId × Batch) := []
  /-- The batches that had been created when the unit of work began, if one is open. -/
  createdBefore : Option (List (BatchId × Batch)) := none

namespace History

/-- The history with one more call, refused or not. -/
def after (h : History) (c : StoreCall) : History :=
  match c with
  | .beginUnit =>
    { store := h.store.after c
      created := h.created
      createdBefore := some (h.createdBefore.getD h.created) }
  | .commitUnit => { store := h.store.after c, created := h.created }
  | .rollbackUnit => { store := h.store.after c, created := h.createdBefore.getD h.created }
  | c => { h with store := h.store.after c, created := h.created ++ h.store.createdBy c }

theorem store_after (h : History) (c : StoreCall) : (h.after c).store = h.store.after c := by
  cases c <;> rfl

/-- The history of a sequence of calls on the empty store. -/
def ofCalls (calls : List StoreCall) : History := calls.foldl after {}

theorem ofCalls_append_singleton (calls : List StoreCall) (c : StoreCall) :
    ofCalls (calls ++ [c]) = (ofCalls calls).after c := by
  rw [ofCalls, List.foldl_append]
  rfl

/-- Histories lead to the stores that can be reached, and to no others. -/
theorem reachable_iff {s : Store} : s.Reachable ↔ ∃ calls, (ofCalls calls).store = s := by
  constructor
  · intro h
    induction h with
    | empty => exact ⟨[], rfl⟩
    | call _ c ih =>
      obtain ⟨calls, rfl⟩ := ih
      exact ⟨calls ++ [c], by rw [ofCalls_append_singleton, store_after]⟩
  · rintro ⟨calls, rfl⟩
    induction calls using List.reverseRecOn with
    | nil => exact .empty
    | append_singleton calls c ih =>
      rw [ofCalls_append_singleton, store_after]
      exact ih.call c

end History

/-! ## What one call does to the batches -/

namespace Store

theorem batches_withBatch {s : Store} (hs : s.WellFormed) (batch : Batch) :
    (s.withBatch batch).batches.toList = s.batches.toList ++ [(s.lastBatch + 1, batch)] := by
  refine SortedMap.toList_insert_of_forall_lt fun id hid ↦ ?_
  obtain ⟨found, hfound⟩ := SortedMap.mem_keys_iff.mp hid
  exact Nat.compare_eq_lt.mpr (Nat.lt_succ_of_le (hs.contents.batch_le id found hfound))

theorem batches_createBatch {s s' : Store} (hs : s.WellFormed) {batch : Batch} {id : BatchId}
    (h : s.createBatch batch = .ok (id, s')) :
    s'.batches.toList = s.batches.toList ++ [(id, batch)] := by
  obtain ⟨-, rfl, rfl⟩ := createBatch_eq_ok h
  exact batches_withBatch hs batch

theorem batches_findOrCreateSession (s : Store) (version year : DimId) :
    (s.findOrCreateSession version year).2.batches = s.batches := by
  rw [findOrCreateSession]
  cases s.findSession? version year <;> rfl

theorem batches_insertSession {s s' : Store} {id : SessionId} {session : Session}
    (h : s.insertSession id session = .ok s') : s'.batches = s.batches := by
  rw [insertSession] at h
  split at h
  · cases h
  · cases h
    rfl

theorem batches_ensureBatch {s s' : Store} (hs : s.WellFormed) {session : SessionId}
    {found : BatchId × Batch} (h : s.ensureBatch session = .ok (found, s')) :
    s'.batches.toList = s.batches.toList ++ s.createdBy (.ensureBatch session) := by
  have hwhole := h
  rw [ensureBatch] at h
  obtain ⟨latest, hlatest, h⟩ := bind_eq_ok.mp h
  cases latest with
  | some found' =>
    cases h
    simp [createdBy, hlatest]
  | none =>
    obtain ⟨⟨id, created⟩, hcreate, h⟩ := bind_eq_ok.mp h
    cases h
    simp only [createdBy, hlatest, hwhole]
    exact batches_createBatch hs hcreate

theorem batches_call {s s' : Store} (hs : s.WellFormed) {c : StoreCall} (hunit : c.isUnit = false)
    (h : s.call c = .ok s') : s'.batches.toList = s.batches.toList ++ s.createdBy c := by
  cases c with
  | createSession session =>
    cases h
    exact (List.append_nil _).symm
  | insertSession id session =>
    rw [batches_insertSession h]
    exact (List.append_nil _).symm
  | findOrCreateSession version year =>
    cases h
    rw [batches_findOrCreateSession]
    exact (List.append_nil _).symm
  | createBatch batch =>
    obtain ⟨⟨id, s'⟩, hcreate, rfl⟩ := map_eq_ok.mp h
    rw [createdBy, hcreate]
    exact batches_createBatch hs hcreate
  | ensureBatch session =>
    obtain ⟨⟨found, s'⟩, hensure, rfl⟩ := map_eq_ok.mp h
    exact batches_ensureBatch hs hensure
  | update key defaults change =>
    obtain ⟨-, rfl⟩ := update_eq_ok h
    exact (List.append_nil _).symm
  | put key values =>
    obtain ⟨⟨id, s'⟩, hput, rfl⟩ := map_eq_ok.mp h
    obtain ⟨-, rfl⟩ := put_eq_ok hput
    exact (List.append_nil _).symm
  | deleteWhere f scope =>
    cases h
    exact (List.append_nil _).symm
  | beginUnit => cases hunit
  | commitUnit => cases hunit
  | rollbackUnit => cases hunit

theorem createdBy_of_error {s : Store} {c : StoreCall} {e : StoreError}
    (h : s.call c = .error e) : s.createdBy c = [] := by
  cases c with
  | createBatch batch =>
    cases hcreate : s.createBatch batch with
    | error e => rw [createdBy, hcreate]
    | ok result =>
      rw [call, hcreate] at h
      cases h
  | ensureBatch session =>
    cases hensure : s.ensureBatch session with
    | error e => simp [createdBy, hensure]
    | ok result =>
      rw [call, hensure] at h
      cases h
  | _ => rfl

end Store

/-! ## The record and the store -/

/-- The record agrees with what a store holds, and with what its unit of work has saved. -/
structure History.Agrees (h : History) : Prop where
  wellFormed : h.store.WellFormed
  created : h.store.batches.toList = h.created
  saved : h.store.saved.map (·.batches.toList) = h.createdBefore

namespace History

/-- A call that does not begin or end a unit of work adds to the record what it creates. -/
theorem Agrees.call {h : History} (ha : h.Agrees) {c : StoreCall} (hunit : c.isUnit = false)
    {s : Store} (hcall : h.store.call c = .ok s) :
    s.batches.toList = h.created ++ h.store.createdBy c ∧
      s.saved.map (·.batches.toList) = h.createdBefore := by
  rw [Store.batches_call ha.wellFormed hunit hcall, ha.created,
    (Store.edit_call hunit hcall).saved_eq, ha.saved]
  exact ⟨rfl, rfl⟩

theorem agrees_empty : ({} : History).Agrees := ⟨Store.wellFormed_empty, rfl, rfl⟩

theorem Agrees.beginUnit {h : History} (ha : h.Agrees) : (h.after .beginUnit).Agrees := by
  refine ⟨ha.wellFormed.after .beginUnit, ?_, ?_⟩
  · rw [History.after, ← ha.created, Store.after, Store.call, Store.beginUnit]
    cases h.store.saved <;> rfl
  · rw [History.after, ← ha.created, ← ha.saved, Store.after, Store.call, Store.beginUnit]
    cases hsaved : h.store.saved with
    | some c => simp [hsaved]
    | none => rfl

theorem Agrees.commitUnit {h : History} (ha : h.Agrees) : (h.after .commitUnit).Agrees := by
  refine ⟨ha.wellFormed.after .commitUnit, ?_, ?_⟩
  · rw [History.after, ← ha.created, Store.after, Store.call, Store.commitUnit]
    cases h.store.saved <;> rfl
  · rw [History.after, Store.after, Store.call, Store.commitUnit]
    cases hsaved : h.store.saved with
    | some c => rfl
    | none => simp [hsaved]

theorem Agrees.rollbackUnit {h : History} (ha : h.Agrees) : (h.after .rollbackUnit).Agrees := by
  refine ⟨ha.wellFormed.after .rollbackUnit, ?_, ?_⟩
  · rw [History.after, ← ha.created, ← ha.saved, Store.after, Store.call, Store.rollbackUnit]
    cases h.store.saved <;> rfl
  · rw [History.after, Store.after, Store.call, Store.rollbackUnit]
    cases hsaved : h.store.saved with
    | some c => rfl
    | none => simp [hsaved]

theorem Agrees.edit {h : History} (ha : h.Agrees) {c : StoreCall} (hunit : c.isUnit = false) :
    (h.after c).Agrees := by
  have hafter : h.after c =
      { h with store := h.store.after c, created := h.created ++ h.store.createdBy c } := by
    cases c <;> first | rfl | cases hunit
  rw [hafter]
  refine ⟨ha.wellFormed.after c, ?_, ?_⟩
  · rw [Store.after]
    cases hcall : h.store.call c with
    | ok s => exact (ha.call hunit hcall).1
    | error e => rw [Store.createdBy_of_error hcall, List.append_nil, ha.created]
  · rw [Store.after]
    cases hcall : h.store.call c with
    | ok s => exact (ha.call hunit hcall).2
    | error e => exact ha.saved

theorem Agrees.after {h : History} (ha : h.Agrees) (c : StoreCall) : (h.after c).Agrees := by
  cases c with
  | beginUnit => exact ha.beginUnit
  | commitUnit => exact ha.commitUnit
  | rollbackUnit => exact ha.rollbackUnit
  | _ => exact ha.edit rfl

theorem agrees_ofCalls (calls : List StoreCall) : (ofCalls calls).Agrees := by
  induction calls using List.reverseRecOn with
  | nil => exact agrees_empty
  | append_singleton calls c ih =>
    rw [ofCalls_append_singleton]
    exact ih.after c

/-- The batch of a session that comes last in a record. -/
def lastOf (created : List (BatchId × Batch)) (session : SessionId) : Option (BatchId × Batch) :=
  (created.filter fun e ↦ e.2.session == session).getLast?

end History

/-! ## What every store promises -/

namespace Store

/-- What holds of a store whose batches were created in the order of a record. -/
structure Sound (s : Store) (created : List (BatchId × Batch)) : Prop where
  /-- A fact is stored under its own key. -/
  fact_key : ∀ key fact, s.find? key = some fact → fact.key = key
  /-- The batch of a fact exists and belongs to the session of its cell. -/
  fact_batch : ∀ fact ∈ s.allFacts, ∃ batch,
    s.batches.get? fact.key.batch = some batch ∧ batch.session = fact.cell.session
  /-- A batch belongs to a session that exists. -/
  batch_session : ∀ id batch, s.batches.get? id = some batch →
    ∃ session, s.sessions.get? batch.session = some session
  fact_ids : (s.allFacts.map Fact.id).Nodup
  fact_le : ∀ fact ∈ s.allFacts, fact.id ≤ s.lastFact
  batch_le : ∀ id batch, s.batches.get? id = some batch → id ≤ s.lastBatch
  session_le : ∀ id session, s.sessions.get? id = some session → id ≤ s.lastSession
  /-- The latest batch of a session that exists is the one created last. -/
  latest : ∀ session,
    s.latestBatch session = (s.session session).map fun _ ↦ History.lastOf created session

theorem WellFormed.nodup_ids {s : Store} (hs : s.WellFormed) :
    (s.allFacts.map Fact.id).Nodup := by
  have hnodup : s.facts.toList.Nodup := nodup_of_increasing s.facts.increasing
  rw [allFacts, List.map_map]
  refine List.Nodup.map_on (fun a ha b hb hid ↦ ?_) hnodup
  have ha' := SortedMap.get?_eq_some_iff.mpr ha
  have hb' := SortedMap.get?_eq_some_iff.mpr hb
  have hkey : a.1 = b.1 := hs.contents.fact_unique _ _ _ _ ha' hb' hid
  rw [hkey, hb', Option.some_inj] at ha'
  exact Prod.ext hkey ha'.symm

theorem WellFormed.sound {s : Store} (hs : s.WellFormed) {created : List (BatchId × Batch)}
    (hcreated : s.batches.toList = created) : s.Sound created where
  fact_key _ _ h := (find?_eq_some_iff.mp h).2
  fact_batch _ h := hs.exists_batch h
  batch_session id batch h :=
    SortedMap.mem_keys_iff.mp (SortedMap.contains_iff.mp (hs.contents.batch_session id batch h))
  fact_ids := hs.nodup_ids
  fact_le fact h := by
    obtain ⟨⟨key, row⟩, hrow, rfl⟩ := List.mem_map.mp h
    exact hs.contents.fact_le key row (SortedMap.get?_eq_some_iff.mpr hrow)
  batch_le := hs.contents.batch_le
  session_le := hs.contents.session_le
  latest session := by rw [latestBatch_eq, batchesOf, hcreated, History.lastOf]

end Store

/-- **Representation.** After every sequence of calls on the empty store, refused ones included, the
store is sound for the batches created on the way, and so is the store to which a unit of work that
is open would be rolled back, for the batches created before the unit began. -/
theorem History.sound_ofCalls (calls : List StoreCall) :
    (ofCalls calls).store.Sound (ofCalls calls).created ∧
      ∀ c, (ofCalls calls).store.saved = some c → ∃ created,
        (ofCalls calls).createdBefore = some created ∧
          ({ toContents := c } : Store).Sound created := by
  have ha := agrees_ofCalls calls
  refine ⟨ha.wellFormed.sound ha.created, fun c hc ↦ ⟨c.batches.toList, ?_, ?_⟩⟩
  · rw [← ha.saved, hc]
    rfl
  · have hs : ({ toContents := c } : Store).WellFormed :=
      ⟨ha.wellFormed.saved c hc, fun c' hc' ↦ by cases hc'⟩
    exact hs.sound rfl

/-- The number of a batch that was rolled back is given again. -/
example : (History.ofCalls [.createSession ⟨"", 1, 1, none⟩, .ensureBatch 1, .beginUnit,
    .createBatch ⟨1, .overwrite, ""⟩, .rollbackUnit, .createBatch ⟨1, .delta, ""⟩]).created =
      [(1, ⟨1, .delta, ""⟩), (2, ⟨1, .delta, ""⟩)] := by decide +kernel

end PlanLedger
