import PlanLedger.Planning.Run
import PlanLedger.Proofs.Planning.Working

/-!
# The entries of a formula run

All entries of a formula run are read from the store as it is when the run begins. Their keys lie in
the one batch that the run writes to, in the session of the run, and each old value is the current
value of the cell. Since the batch belongs to the session, the store accepts every key, and it goes
on accepting them while entries are written.
-/

namespace PlanLedger

open Formula (Bindings CellRef TargetFault)

/-! ## Targets -/

theorem session_set (c : Cell) (d : Dimension) (v : DimId) : (c.set d v).session = c.session := by
  cases d <;> rfl

theorem session_placeOnTarget {x : RunFrame} {name : String} {c c' : Cell} {p : Dimension × DimId}
    (h : placeOnTarget x name c p = .ok c') : c'.session = c.session := by
  obtain ⟨d, v⟩ := p
  rw [placeOnTarget] at h
  split at h
  · split at h
    · cases h
      rfl
    · cases h
  · split at h
    · cases h
      rfl
    · cases h
  · cases h
  · cases h
    exact session_set c _ v

theorem session_targetCell {x : RunFrame} {name : String} {keyFigure : DimId}
    {pairs : List (Dimension × DimId)} {c : Cell}
    (h : targetCell x name keyFigure pairs = .ok c) : c.session = x.sessionId := by
  simp only [targetCell] at h
  split at h
  · cases h
  · cases h
  · -- No value that is put on the target moves it to another session.
    refine of_foldlM_eq_ok (P := fun c ↦ c.session = x.sessionId) h rfl fun p _ c c' hc hstep ↦ ?_
    exact (session_placeOnTarget hstep).trans hc

theorem session_target {r : Registry} {x : RunFrame} {b : Bindings} {ref : CellRef} {c : Cell}
    {name : String} (h : target r x b ref = .ok (c, name)) : c.session = x.sessionId := by
  rw [target] at h
  obtain ⟨keyFigure, -, h⟩ := bind_eq_ok.mp h
  obtain ⟨pairs, -, h⟩ := bind_eq_ok.mp h
  cases hcell : targetCell x (r.keyName keyFigure pairs) keyFigure pairs with
  | error fault =>
    simp only [hcell] at h
    cases h
  | ok c' =>
    simp only [hcell] at h
    cases h
    exact session_targetCell hcell

/-! ## Entries -/

namespace Engine

/-- What is known of an entry that a run writes to a batch, where `s` is the store it was read
from. -/
structure EntryOf (s : Store) (session : SessionId) (batch : BatchId) (entry : Entry) : Prop where
  batch_eq : entry.key.batch = batch
  session_eq : entry.key.session = session
  old_eq : entry.oldValue = s.currentValue entry.key.cell

theorem entryOf_combinationEntry {e : Engine} {s : Store} {f : PlanFormula} {p : RunPlan}
    {batch : BatchId} {b : Bindings} {entry : Entry}
    (h : e.combinationEntry s f p batch b = .ok entry) :
    EntryOf s p.frame.sessionId batch entry := by
  rw [combinationEntry] at h
  obtain ⟨⟨c, name⟩, htarget, h⟩ := bind_eq_ok.mp h
  obtain ⟨value, -, h⟩ := bind_eq_ok.mp h
  cases h
  exact ⟨rfl, session_target htarget, rfl⟩

theorem entryOf_mem {e : Engine} {s : Store} {f : PlanFormula} {p : RunPlan} {batch : BatchId}
    {bs : List Bindings} {entries : List Entry}
    (h : bs.mapM (e.combinationEntry s f p batch) = .ok entries) :
    ∀ entry ∈ entries, EntryOf s p.frame.sessionId batch entry := by
  induction bs generalizing entries with
  | nil =>
    cases h
    exact fun entry hentry ↦ absurd hentry List.not_mem_nil
  | cons b rest ih =>
    rw [List.mapM_cons] at h
    obtain ⟨first, hfirst, h⟩ := bind_eq_ok.mp h
    obtain ⟨others, hothers, h⟩ := bind_eq_ok.mp h
    cases h
    intro entry hentry
    rcases List.mem_cons.mp hentry with rfl | hentry
    · exact entryOf_combinationEntry hfirst
    · exact ih hothers entry hentry

theorem EntryOf.checkKey {s s' : Store} {session : SessionId} {id : BatchId} {batch : Batch}
    {entry : Entry} (h : EntryOf s session id entry) (hlatest : s'.IsLatestBatch session id batch) :
    s'.checkKey entry.key = .ok () := by
  refine Store.checkKey_eq_ok_iff.mpr ⟨batch, ?_, ?_⟩
  · rw [h.batch_eq]
    exact hlatest.stored
  · rw [h.session_eq]
    exact hlatest.owned

/-! ## Settling entries -/

theorem run_writeEntry (b : Books) {entry : Entry} (h : b.store.checkKey entry.key = .ok ()) :
    (Working.onStore fun s ↦ return ((), ← writeEntry s entry)).run b =
      .ok () { b with
        store := b.store.written entry.key { value := entry.newValue } fun values ↦
          { values with value := entry.newValue } } := by
  rw [EStateM.run, Working.onStore]
  simp only [writeEntry, Store.update_eq, h, Except.map, bind, Except.bind, pure, Except.pure]

/-- The books have a run in which there is room for some more entries, and a store that accepts
their keys. -/
structure Admits (run : RunId) (entries : List Entry) (b : Books) : Prop where
  listed : ∃ r, b.ledger.run? run = some r ∧ r.entries.length + entries.length ≤ maxEntries
  accepted : ∀ entry ∈ entries, b.store.checkKey entry.key = .ok ()

/-- An entry for which there is room is listed, and the others are still admitted, also after writes
of the store. -/
theorem Admits.exists_record {run : RunId} {entry : Entry} {rest : List Entry} {b : Books}
    (h : Admits run (entry :: rest) b) : ∃ l, b.ledger.record run entry = .ok l ∧
      ∀ s : Store, s.batches = b.store.batches → Admits run rest ⟨s, l⟩ := by
  obtain ⟨⟨r, hr, hroom⟩, haccepted⟩ := h
  rw [List.length_cons] at hroom
  have hrecord : ∃ l, b.ledger.record run entry = .ok l := by
    rw [Ledger.run?] at hr
    rw [Ledger.record, hr]
    dsimp only
    rw [if_pos (by omega)]
    exact ⟨_, rfl⟩
  obtain ⟨l, hl⟩ := hrecord
  refine ⟨l, hl, fun s hbatches ↦ ⟨⟨r.add entry, ?_, ?_⟩, fun other hother ↦ ?_⟩⟩
  · rw [Ledger.run?_record hl, if_pos rfl, hr, Option.map_some]
  · rw [Run.add, List.length_append, List.length_singleton]
    omega
  · -- Whether a key is accepted depends on the batches only.
    rw [← haccepted other (List.mem_cons_of_mem _ hother), Store.checkKey, Store.checkKey, hbatches]

theorem Admits.run_settleEntry {run : RunId} {entry : Entry} {rest : List Entry} {b : Books}
    (h : Admits run (entry :: rest) b) (preview : Bool) :
    ∃ b', (settleEntry run preview entry).run b = .ok () b' ∧ Admits run rest b' := by
  obtain ⟨l, hl, hrest⟩ := h.exists_record
  have hkey := h.accepted entry List.mem_cons_self
  have hfirst : (Working.record run entry).run b = .ok () { b with ledger := l } :=
    Working.run_record_eq_ok.mpr ⟨l, hl, rfl⟩
  rw [settleEntry, EStateM.run_bind, hfirst]
  dsimp only
  cases preview with
  | true => exact ⟨_, rfl, hrest b.store rfl⟩
  | false => exact ⟨_, run_writeEntry { b with ledger := l } hkey, hrest _ rfl⟩

theorem Admits.run_forM_settleEntry {run : RunId} {entries : List Entry} {b : Books}
    (h : Admits run entries b) (preview : Bool) :
    ∃ b', (entries.forM (settleEntry run preview)).run b = .ok () b' := by
  induction entries generalizing b with
  | nil => exact ⟨b, rfl⟩
  | cons entry rest ih =>
    obtain ⟨b', hfirst, h'⟩ := h.run_settleEntry preview
    obtain ⟨b'', hrest⟩ := ih h'
    refine ⟨b'', ?_⟩
    rw [List.forM, EStateM.run_bind, hfirst]
    exact hrest

/-! ## The work of a run -/

theorem run_runWork (e : Engine) (f : PlanFormula) (p : RunPlan) (preview : Bool) (run : RunId)
    (b : Books) :
    (e.runWork f p preview run).run b =
      match b.store.ensureBatch p.frame.sessionId with
      | .error err => .error (.store err) b
      | .ok ((batch, _), s) =>
        match p.combinations.mapM (e.combinationEntry s f p batch) with
        | .error err => .error (.formula err) { b with store := s }
        | .ok entries => (entries.forM (settleEntry run preview)).run { b with store := s } := by
  rw [runWork, EStateM.run_bind]
  simp only [EStateM.run, Working.onStore]
  cases b.store.ensureBatch p.frame.sessionId with
  | error err => rfl
  | ok found =>
    obtain ⟨⟨batch, stored⟩, s⟩ := found
    dsimp only
    show (liftM (PlanningError.ofFormula (p.combinations.mapM (e.combinationEntry s f p batch))) >>=
      fun entries ↦ entries.forM (settleEntry run preview) : Working Unit) { b with store := s } = _
    cases p.combinations.mapM (e.combinationEntry s f p batch) with
    | error err => rfl
    | ok entries => rfl

/-- In a session that there is, the work of a run in which there is room for all combinations fails
only as the entry of a combination does. -/
theorem runWork_eq_error {e : Engine} {f : PlanFormula} {p : RunPlan} {preview : Bool}
    {run : RunId} {b b' : Books} {session : Session} {r : Run} {err : PlanningError}
    (hsession : b.store.session p.frame.sessionId = .ok session)
    (hlisted : b.ledger.run? run = some r)
    (hroom : r.entries.length + p.combinations.length ≤ maxEntries)
    (h : (e.runWork f p preview run).run b = .error err b') :
    ∃ s batch, ∃ combination ∈ p.combinations, ∃ fault,
      e.combinationEntry s f p batch combination = .error fault ∧ err = .formula fault := by
  obtain ⟨⟨⟨id, batch⟩, s⟩, hensure⟩ := Store.exists_ensureBatch hsession
  rw [run_runWork, hensure] at h
  dsimp only at h
  cases hentries : p.combinations.mapM (e.combinationEntry s f p id) with
  | error fault =>
    rw [hentries] at h
    cases h
    obtain ⟨combination, hmem, hfault⟩ := mapM_eq_error hentries
    exact ⟨s, id, combination, hmem, fault, hfault, rfl⟩
  | ok entries =>
    rw [hentries] at h
    have hlatest := (Store.ensureBatch_eq_ok hensure).1
    have hadmits : Admits run entries { b with store := s } := by
      refine ⟨⟨r, hlisted, ?_⟩, fun entry hentry ↦ ?_⟩
      · rw [← (mapM_eq_ok.mp hentries).length_eq]
        exact hroom
      · exact (entryOf_mem hentries entry hentry).checkKey hlatest
    obtain ⟨b'', hdone⟩ := hadmits.run_forM_settleEntry preview
    dsimp only at h
    rw [hdone] at h
    cases h

end Engine

end PlanLedger
