import PlanLedger.Proofs.Planning.Frame
import PlanLedger.Proofs.Planning.Reachable
import PlanLedger.Proofs.Planning.Written

/-!
# Reposting is not seen

A repost writes every fact of the newest batch of a session once more, to a batch that is newer
still. The facts of the newest batch are current, so each cell that is written had the values
already that are written to it, and the new batch, being newest, is the one that they are read from
now. Facts in older batches of the same cells stay superseded. Whatever is read therefore stays the
same, after one repost as after many.
-/

namespace PlanLedger

open Working (run_lift_bind_eq_ok run_store_bind_eq_ok run_onStore_bind_eq_ok run_pure_eq_ok)

/-- The batch that the newest batch of a session is reposted in. -/
def repostBatch (session : SessionId) (latest : BatchId) (batch : Batch) : Batch :=
  { session, action := batch.action, description := "repost of batch " ++ toString latest }

/-- The writes of reposting facts in a batch. -/
def repostWrites (x : WorkContext) (batch : BatchId) (facts : List Fact) : List Write :=
  facts.map fun fact ↦ x.putWrite (fact.cell.inBatch batch) fact.values fact.value

variable {x : WorkContext}

/-- A repost finds no batch and does nothing, or it writes the facts of the newest batch to a new
one. -/
theorem run_repost_eq_ok {b b' : Books} {t : Tally} (h : (repost x).run b = .ok t b') :
    b.store.latestBatch x.sessionId = .ok none ∧ t = {} ∧ b' = b ∨
    ∃ latest batch, b.store.latestBatch x.sessionId = .ok (some (latest, batch)) ∧
      t = ⟨(b.store.factsIn latest).length, []⟩ ∧
      Books.Wrote x.run (repostWrites x (b.store.lastBatch + 1) (b.store.factsIn latest))
        { b with store := b.store.withBatch (repostBatch x.sessionId latest batch) } b' := by
  obtain ⟨found, hfound, h⟩ := run_lift_bind_eq_ok.mp (run_store_bind_eq_ok.mp h)
  replace hfound := PlanningError.ofStore_eq_ok.mp hfound
  cases found with
  | none =>
    obtain ⟨rfl, rfl⟩ := run_pure_eq_ok.mp h
    exact .inl ⟨hfound, rfl, rfl⟩
  | some found =>
    obtain ⟨latest, batch⟩ := found
    obtain ⟨facts, hfacts, h⟩ := run_lift_bind_eq_ok.mp (run_store_bind_eq_ok.mp h)
    obtain rfl := Store.batchFacts_eq_ok (PlanningError.ofStore_eq_ok.mp hfacts)
    obtain ⟨created, s, hcreated, hwork⟩ := run_onStore_bind_eq_ok.mp h
    obtain ⟨-, rfl, rfl⟩ := Store.createBatch_eq_ok hcreated
    have hwrites : Working.Writes x.run
        (repostWrites x (b.store.lastBatch + 1) (b.store.factsIn latest)) []
        (tallyOver (repostFact x (b.store.lastBatch + 1)) (b.store.factsIn latest)) :=
      .tallyOver_map fun fact _ ↦ .put x _ fact.values fact.value
    obtain ⟨rfl, hwrote⟩ := hwrites _ t b' hwork
    refine .inr ⟨latest, batch, hfound, ?_, hwrote⟩
    rw [repostWrites, List.length_map]

/-! ## The store after a repost -/

namespace Store

variable {s : Store} {session : SessionId} {latest : BatchId} {batch new : Batch}

/-- The facts of the newest batch of a session are current facts of the session. -/
theorem IsLatestBatch.isCurrentIn (h : s.IsLatestBatch session latest batch) (hs : s.WellFormed)
    {fact : Fact} (hfact : fact ∈ s.factsIn latest) : s.IsCurrentIn session fact := by
  have hfacts : s.batchFacts latest = .ok (s.factsIn latest) := by
    rw [batchFacts, if_pos]
    · rfl
    · rw [SortedMap.contains, h.stored]
      rfl
  exact isCurrentIn_of_mem_batchFacts hs h hfacts hfact

/-- The store after the facts of a batch are reposted in a new one. -/
def reposted (s : Store) (x : WorkContext) (new : Batch) (latest : BatchId) : Store :=
  Write.applyAll (s.withBatch new) (repostWrites x (s.lastBatch + 1) (s.factsIn latest))

theorem onDifferentCells_repostWrites (s : Store) (x : WorkContext) (id latest : BatchId) :
    Write.OnDifferentCells (repostWrites x id (s.factsIn latest)) := by
  refine List.pairwise_map.mpr ((s.factsIn_increasing latest).imp fun {a b} hlt hcell ↦ ?_)
  have hsame : a.cell = b.cell := hcell
  rw [hsame, Std.compare_self] at hlt
  cases hlt

theorem truthful_repostWrites (hs : s.WellFormed) (hlatest : s.IsLatestBatch session latest batch) :
    ∀ w ∈ repostWrites x (s.lastBatch + 1) (s.factsIn latest),
      w.Truthful (s.withBatch new) fun _ ↦ s.lastBatch + 1 := by
  intro w hw
  obtain ⟨fact, hfact, rfl⟩ := List.mem_map.mp hw
  exact truthful_withBatch hs new rfl (hlatest.isCurrentIn hs hfact).newest.currentValue_eq.symm

/-- **A repost is not seen.** Every cell shows the same values as before. -/
theorem readsAlike_reposted (hs : s.WellFormed) (hlatest : s.IsLatestBatch session latest batch) :
    s.ReadsAlike (s.reposted x new latest) := by
  intro c
  have hadded : (s.withBatch new).currentValues? c = s.currentValues? c :=
    currentValues?_of_facts rfl c
  by_cases hc : ∃ fact ∈ s.factsIn latest, fact.cell = c
  · -- The cell was current in the newest batch and has the same values in the new one.
    obtain ⟨fact, hfact, rfl⟩ := hc
    rw [(hlatest.isCurrentIn hs hfact).newest.currentValues?_eq]
    exact Write.currentValues?_applyAll (truthful_repostWrites hs hlatest)
      (s.onDifferentCells_repostWrites x _ _) (List.mem_map_of_mem hfact)
  · refine Eq.trans (Write.currentValues?_applyAll_of_forall_ne fun w hw hcell ↦ ?_) hadded
    obtain ⟨fact, hfact, rfl⟩ := List.mem_map.mp hw
    exact hc ⟨fact, hfact, hcell⟩

theorem map_reading_factsIn_reposted (hs : s.WellFormed) (x : WorkContext) (new : Batch)
    (latest : BatchId) : ((s.reposted x new latest).factsIn (s.lastBatch + 1)).map Fact.reading =
      (s.factsIn latest).map Fact.reading := by
  refine map_reading_factsIn_congr fun c ↦ ?_
  by_cases hc : ∃ fact ∈ s.factsIn latest, fact.cell = c
  · obtain ⟨fact, hfact, rfl⟩ := hc
    have hold : s.values? (fact.cell.inBatch latest) = some fact.values :=
      mem_map_reading_factsIn_iff.mp (List.mem_map_of_mem hfact)
    rw [hold]
    exact Write.values?_applyAll (s.onDifferentCells_repostWrites x _ _)
      (List.mem_map_of_mem hfact)
  · -- Neither batch holds the cell: nothing was written, and a new batch is empty.
    have hold : s.values? (c.inBatch latest) = none := by
      refine Option.eq_none_iff_forall_ne_some.mpr fun values hvalues ↦ ?_
      obtain ⟨fact, hfact, hreading⟩ :=
        List.mem_map.mp (mem_map_reading_factsIn_iff.mpr hvalues)
      exact hc ⟨fact, hfact, congrArg Prod.fst hreading⟩
    rw [hold, ← values?_next_batch hs new c]
    refine Write.values?_applyAll_of_forall_ne fun w hw hkey ↦ ?_
    obtain ⟨fact, hfact, rfl⟩ := List.mem_map.mp hw
    exact hc ⟨fact, hfact, congrArg FactKey.cell hkey⟩

/-- The new batch is the newest one of its session. -/
theorem latestBatch_reposted (hs : s.WellFormed) {found : Option (BatchId × Batch)}
    (hfound : s.latestBatch session = .ok found) (hnew : new.session = session) (x : WorkContext)
    (latest : BatchId) :
    (s.reposted x new latest).latestBatch session = .ok (some (s.lastBatch + 1, new)) := by
  rw [latestBatch_eq] at hfound
  obtain ⟨stored, hsession, -⟩ := map_eq_ok.mp hfound
  have hrows := Write.rowsWritten_applyAll (s.withBatch new)
    (repostWrites x (s.lastBatch + 1) (s.factsIn latest))
  have hstored : (s.reposted x new latest).session session = .ok stored := by
    rw [session_eq_ok_iff] at hsession ⊢
    rw [reposted, hrows.sessions]
    exact hsession
  refine latestBatch_of_isLatestBatch hstored ⟨?_, hnew, fun id other hother _ ↦ ?_⟩
  · rw [reposted, hrows.batches]
    exact SortedMap.get?_insert_self _ _ _
  · rw [reposted, hrows.batches, withBatch, SortedMap.get?_insert] at hother
    by_cases hid : id = s.lastBatch + 1
    · exact Nat.le_of_eq hid
    · rw [if_neg hid] at hother
      exact Nat.le_succ_of_le (hs.contents.batch_le id other hother)

/-- Everything that can be read of a store is the same in another one: what selections list, the
values that are looked up, and the aggregates. -/
structure SameReads (s s' : Store) : Prop where
  selections : ∀ f scope, s'.readings f scope = s.readings f scope
  values : ∀ keyFigure f scope, s'.get keyFigure f scope = s.get keyFigure f scope
  aggregates : ∀ kind keyFigure f scope,
    s'.aggregate? kind keyFigure f scope = s.aggregate? kind keyFigure f scope

theorem ReadsAlike.sameReads {s' : Store} (h : s.ReadsAlike s') : s.SameReads s' :=
  ⟨h.readings_eq, h.get_eq, h.aggregate?_eq⟩

end Store

/-! ## Reposting in an engine -/

namespace Engine

variable {e : Engine}

/-- The engine after sessions are reposted, one after the other. -/
def repostAll (e : Engine) (sessions : List SessionId) : Engine :=
  sessions.foldl (fun e id ↦ (e.runFunction .repost id).2) e

/-- A repost, successful or not, is not seen. -/
theorem readsAlike_repost (hs : e.store.WellFormed) (id : SessionId) :
    e.store.ReadsAlike (e.runFunction .repost id).2.store := by
  rcases e.store_runFunction_cases .repost id with hstore | ⟨session, tally, worked, hwork, hstore⟩
  · rw [hstore]
    exact .refl _
  · have hbegun := wellFormed_begun hs (.function PlanningFunction.repost.kind) false
    have hbefore :
        e.store.ReadsAlike (e.begun (.function PlanningFunction.repost.kind) false).store :=
      .of_facts_eq rfl
    rw [hstore]
    rcases run_repost_eq_ok hwork with ⟨-, -, rfl⟩ | ⟨latest, batch, hlatest, -, hwrote⟩
    · exact hbefore
    · rw [hwrote.store]
      exact hbefore.trans
        (Store.readsAlike_reposted hbegun (Store.isLatestBatch_of_latestBatch hlatest))

theorem readsAlike_repostAll (h : e.Reachable) (sessions : List SessionId) :
    e.store.ReadsAlike (e.repostAll sessions).store := by
  induction sessions generalizing e with
  | nil => exact .refl _
  | cons id rest ih =>
    exact (readsAlike_repost h.wellFormed id).trans (ih (h.call (.run (.function .repost id))))

/-- **A repost is invisible to readers.** However often sessions of a reachable engine are reposted,
selections of every filter and scope list the same cells in the same order with the same values, and
every look-up and every aggregate is the same. A successful repost of a session without a batch does
nothing. Otherwise it adds a batch, which is the newest one of the session now: it has the action of
the one that was newest before and the same cells with the same values, and each of its facts
counts. -/
theorem repost_invisible (h : e.Reachable) :
    (∀ sessions, e.store.SameReads (e.repostAll sessions).store) ∧
    ∀ id outcome, (e.runFunction .repost id).1 = .ok outcome →
      (e.store.latestBatch id = .ok none ∧ (e.runFunction .repost id).2.store = e.store ∧
        outcome.affected = 0) ∨
      ∃ latest batch created new,
        e.store.latestBatch id = .ok (some (latest, batch)) ∧
        (e.runFunction .repost id).2.store.latestBatch id = .ok (some (created, new)) ∧
        e.store.lastBatch < created ∧ new.action = batch.action ∧
        ((e.runFunction .repost id).2.store.factsIn created).map Fact.reading =
          (e.store.factsIn latest).map Fact.reading ∧
        outcome.affected = (e.store.factsIn latest).length := by
  refine ⟨fun sessions ↦ (readsAlike_repostAll h sessions).sameReads, fun id outcome hrun ↦ ?_⟩
  have hbegun := wellFormed_begun h.wellFormed (.function PlanningFunction.repost.kind) false
  obtain ⟨hsaved, session, tally, worked, hsession, hwork, rfl, hstore⟩ :=
    exists_work_of_runFunction hrun
  rw [hstore]
  rcases run_repost_eq_ok hwork with ⟨hnone, rfl, rfl⟩ | ⟨latest, batch, hlatest, rfl, hwrote⟩
  · refine .inl ⟨hnone, ?_, rfl⟩
    rw [← hsaved]
    rfl
  · rw [hwrote.store]
    refine .inr ⟨latest, batch, e.store.lastBatch + 1, repostBatch id latest batch, hlatest, ?_,
      Nat.lt_succ_self _, rfl, ?_, rfl⟩
    · exact Store.latestBatch_reposted hbegun hlatest rfl _ latest
    · exact Store.map_reading_factsIn_reposted hbegun _ _ latest

/-- The outcome of reposting the first session of the small plan. -/
private def repostedOutcome : FunctionOutcome where
  run := 1
  affected := 2
  errors := []
  entries :=
    [{ key := (smallCell 1).inBatch 2, cellName := "REV[Version=P0,Year=2024,Period=01,OrgUnit=O1]",
       oldValue := ten, newValue := ten, seq := 0 },
     { key := (smallCell 2).inBatch 2, cellName := "REV[Version=P0,Year=2024,Period=01,OrgUnit=2]",
       oldValue := twenty, newValue := twenty, seq := 1 }]

/-- In the small plan the first session has a batch with two facts and the second session has no
batch. The facts of the first one are doubled when it is reposted, and nothing else is read then,
also after three reposts. -/
theorem repost_invisible_smallPlan :
    (smallPlan.runFunction .repost 1).1 = .ok repostedOutcome ∧
      (∃ latest batch created new,
        smallPlan.store.latestBatch 1 = .ok (some (latest, batch)) ∧
        (smallPlan.runFunction .repost 1).2.store.latestBatch 1 = .ok (some (created, new)) ∧
        smallPlan.store.lastBatch < created ∧ new.action = batch.action ∧
        ((smallPlan.runFunction .repost 1).2.store.factsIn created).map Fact.reading =
          (smallPlan.store.factsIn latest).map Fact.reading ∧
        2 = (smallPlan.store.factsIn latest).length) ∧
      smallPlan.store.SameReads (smallPlan.repostAll [1, 2, 1]).store := by
  have hrun : (smallPlan.runFunction .repost 1).1 = .ok repostedOutcome := by decide +kernel
  obtain ⟨hreads, hbatches⟩ := repost_invisible reachable_smallPlan
  refine ⟨hrun, (hbatches 1 _ hrun).resolve_left fun hnone ↦ ?_, hreads [1, 2, 1]⟩
  exact absurd hnone.2.2 (by decide)

end Engine

end PlanLedger
