import PlanLedger.Proofs.Planning.Outcome
import PlanLedger.Proofs.Planning.Reachable

/-!
# Isolation of sessions

A formula without look-ups that is run on a session neither sees nor touches the facts of another
session. This is a statement on two engines that are the same but for those facts: both runs have
the same result, and afterwards the engines are still the same but for those facts. Whatever a
formula asks for, its cells are read within the scope of the session, which no filter can leave, and
the batch that is written to and the numbers of new facts come from what the engines have in common.
-/

namespace PlanLedger

open Formula (Bindings)

/-! ## Stores -/

namespace Store

/-- Two stores that differ in the facts of other sessions at most, and in what a unit of work has
saved. -/
structure SameWithin (session : SessionId) (s s' : Store) : Prop where
  sessions : s'.sessions = s.sessions
  batches : s'.batches = s.batches
  lastFact : s'.lastFact = s.lastFact
  lastSession : s'.lastSession = s.lastSession
  lastBatch : s'.lastBatch = s.lastBatch
  inUnit : s'.inUnit = s.inUnit
  facts : ∀ key, key.session = session → s'.facts.get? key = s.facts.get? key

namespace SameWithin

variable {session : SessionId} {s s' : Store}

theorem agreeOn (h : SameWithin session s s') : AgreeOn (fun c ↦ c.session = session) s s' := by
  intro key hkey
  rw [find?, find?, h.facts key hkey]

theorem session_eq (h : SameWithin session s s') (id : SessionId) :
    s'.session id = s.session id := by
  rw [Store.session, Store.session, h.sessions]

theorem ensureBatch (h : SameWithin session s s') {id : SessionId} {found : BatchId × Batch}
    {t : Store} (ht : s.ensureBatch id = .ok (found, t)) :
    ∃ t', s'.ensureBatch id = .ok (found, t') ∧ SameWithin session t t' := by
  have hlatest : s'.latestBatch id = s.latestBatch id := by
    rw [latestBatch_eq, latestBatch_eq, h.session_eq, batchesOf, batchesOf, h.batches]
  rw [Store.ensureBatch] at ht ⊢
  rw [hlatest]
  obtain ⟨latest, hfound, ht⟩ := bind_eq_ok.mp ht
  rw [hfound, ok_bind]
  cases latest with
  | some latest =>
    cases ht
    exact ⟨s', rfl, h⟩
  | none =>
    obtain ⟨⟨batch, created⟩, hcreate, ht⟩ := bind_eq_ok.mp ht
    cases ht
    dsimp only at hcreate ⊢
    rw [createBatch_eq] at hcreate ⊢
    obtain ⟨stored, hstored, hcreate⟩ := map_eq_ok.mp hcreate
    cases hcreate
    refine ⟨s'.withBatch { session := id, action := .delta }, ?_, ?_⟩
    · rw [h.session_eq, hstored, h.lastBatch]
      rfl
    · exact { h with
        batches := by rw [withBatch, withBatch, h.batches, h.lastBatch]
        lastBatch := congrArg (· + 1) h.lastBatch }

/-- A write to a key of the session finds the same row, or adds one with the same number. -/
theorem written (h : SameWithin session s s') {key : FactKey} (hkey : key.session = session)
    (defaults : FactValues) (change : FactValues → FactValues) :
    SameWithin session (s.written key defaults change) (s'.written key defaults change) := by
  have hrow : s'.rowFor key defaults = s.rowFor key defaults := by
    rw [rowFor, rowFor, h.facts key hkey, h.lastFact]
  have hlast : (s'.written key defaults change).lastFact =
      (s.written key defaults change).lastFact := by
    rw [Store.written, Store.written, SortedMap.contains, SortedMap.contains, h.facts key hkey,
      h.lastFact]
  refine { h with lastFact := hlast, facts := fun key' hkey' ↦ ?_ }
  rw [Store.written, Store.written, SortedMap.get?_insert, SortedMap.get?_insert, hrow,
    h.facts key' hkey']

theorem applyAll (h : SameWithin session s s') {ws : List Write}
    (hws : ∀ w ∈ ws, w.key.session = session) :
    SameWithin session (Write.applyAll s ws) (Write.applyAll s' ws) := by
  induction ws generalizing s s' with
  | nil => exact h
  | cons w rest ih =>
    obtain ⟨hw, hrest⟩ := List.forall_mem_cons.mp hws
    exact ih (h.written hw w.defaults w.change) hrest

end SameWithin

end Store

/-! ## Ledgers -/

namespace Ledger

theorem ext_runs {l l' : Ledger} (hruns : l.runs = l'.runs) (hlast : l.lastRun = l'.lastRun) :
    l = l' := by
  obtain ⟨runs, lastRun, bounded⟩ := l
  obtain ⟨runs', lastRun', bounded'⟩ := l'
  cases hruns
  cases hlast
  rfl

theorem ext_run? {l l' : Ledger} (hruns : ∀ id, l.run? id = l'.run? id)
    (hlast : l.lastRun = l'.lastRun) : l = l' :=
  ext_runs (SortedMap.ext_get? hruns) hlast

end Ledger

/-! ## Engines -/

namespace Engine

/-- Two engines that differ in the facts of other sessions at most. -/
structure SameWithin (session : SessionId) (e e' : Engine) : Prop where
  registry : e'.registry = e.registry
  catalog : e'.catalog = e.catalog
  options : e'.options = e.options
  ledger : e'.ledger = e.ledger
  store : e.store.SameWithin session e'.store

variable {session : SessionId} {e e' : Engine} {f : PlanFormula} {request : RunRequest}

theorem SameWithin.plan_eq (h : SameWithin session e e') :
    e'.plan f request = e.plan f request := by
  obtain ⟨store, ledger, registry, catalog, options⟩ := e
  obtain ⟨store', ledger', registry', catalog', options'⟩ := e'
  obtain ⟨rfl, rfl, rfl, rfl, hstore⟩ := h
  exact plan_withStore ledger' (hstore.session_eq request.session)

theorem readsWithin_session {p : RunPlan} (hp : e.Plans f request p)
    (hreferences : p.compiled.statement.expr.hasReferences = false) (b : Bindings) :
    e.ReadsWithin p b fun c ↦ c.session = request.session := by
  refine ⟨⟨fun ref _ keyFigure f _ c hselects ↦ ?_, fun call data hcall ↦ ?_⟩,
    fun c name htarget ↦ ?_⟩
  · exact (Filter.session_of_selects hselects).trans hp.session_id
  · exact (List.any_eq_false.mp hreferences _ hcall rfl).elim
  · exact (session_target htarget).trans hp.session_id

theorem SameWithin.combinationEntry_eq (h : SameWithin request.session e e') {p : RunPlan}
    (hp : e.Plans f request p) (hreferences : p.compiled.statement.expr.hasReferences = false)
    (batch : BatchId) (b : Bindings) :
    e'.combinationEntry e'.store f p batch b = e.combinationEntry e.store f p batch b := by
  have hsame : e.combinationEntry e.store f p batch b = e.combinationEntry e'.store f p batch b :=
    combinationEntry_congr (readsWithin_session hp hreferences b) h.store.agreeOn
  rw [hsame]
  obtain ⟨store, ledger, registry, catalog, options⟩ := e
  obtain ⟨store', ledger', registry', catalog', options'⟩ := e'
  obtain ⟨rfl, rfl, rfl, rfl, -⟩ := h
  rfl

theorem SameWithin.failed (h : SameWithin session e e') {err err' : PlanningError}
    {failed failed' : Engine} (hfails : e.FailsWith err failed)
    (hfails' : e'.FailsWith err' failed') : SameWithin session failed failed' := by
  obtain ⟨same, last, -⟩ := hfails
  obtain ⟨same', last', -⟩ := hfails'
  refine ⟨?_, ?_, ?_, ?_, ?_⟩
  · rw [same'.registry, same.registry, h.registry]
  · rw [same'.catalog, same.catalog, h.catalog]
  · rw [same'.options, same.options, h.options]
  · refine Ledger.ext_runs ?_ ?_
    · rw [same'.runs, same.runs, h.ledger]
    · rw [last', last, h.ledger]
  · rw [same'.store, same.store]
    exact h.store

/-- Runs that are prepared have outcomes of the same kind with the same entries. -/
theorem SameWithin.outcome (h : SameWithin request.session e e') {p : RunPlan}
    (hp : e.Plans f request p) (hreferences : p.compiled.statement.expr.hasReferences = false)
    {batch : BatchId} {s s' : Store} (hs : s.SameWithin request.session s')
    {result result' : Except PlanningError RunReport} {after after' : Engine}
    (hleft : e.Outcome f request p batch s result after)
    (hright : e'.Outcome f request p batch s' result' after') :
    result' = result ∧ SameWithin request.session after after' := by
  have hentries : p.combinations.mapM (e'.combinationEntry e'.store f p batch) =
      p.combinations.mapM (e.combinationEntry e.store f p batch) :=
    mapM_congr fun b _ ↦ h.combinationEntry_eq hp hreferences batch b
  have hnext : e'.nextRun = e.nextRun := by rw [nextRun, nextRun, h.ledger]
  -- The entries decide which of the three outcomes it is, so only outcomes of one kind can meet.
  cases hleft with
  | failed err after heq hfails =>
    cases hright with
    | failed err' after' heq' hfails' =>
      rw [hentries, heq] at heq'
      cases heq'
      exact ⟨rfl, h.failed hfails hfails'⟩
    | full _ _ heq' | done _ _ heq' =>
      rw [hentries, heq] at heq'
      cases heq'
  | full entries after heq hfull hfails =>
    cases hright with
    | full _ after' _ _ hfails' => exact ⟨by rw [hnext], h.failed hfails hfails'⟩
    | failed _ _ heq' =>
      rw [hentries, heq] at heq'
      cases heq'
    | done _ _ heq' hroom =>
      rw [hentries, heq] at heq'
      cases heq'
      exact absurd hroom (Nat.not_le_of_lt hfull)
  | done entries ledger heq hroom hlast hruns =>
    cases hright with
    | failed _ _ heq' =>
      rw [hentries, heq] at heq'
      cases heq'
    | full _ _ heq' hfull =>
      rw [hentries, heq] at heq'
      cases heq'
      exact absurd hroom (Nat.not_le_of_lt hfull)
    | done entries' ledger' heq' _ hlast' hruns' =>
      rw [hentries, heq] at heq'
      cases heq'
      have hkeys : ∀ w ∈ entries.map Entry.toWrite, w.key.session = request.session := by
        intro w hw
        obtain ⟨entry, hentry, rfl⟩ := List.mem_map.mp hw
        exact (entryOf_mem heq entry hentry).session_eq.trans hp.session_id
      refine ⟨by rw [hnext], h.registry, h.catalog, h.options, ?_, ?_⟩
      · refine Ledger.ext_run? (fun id ↦ ?_) (by rw [hlast', hlast, hnext])
        rw [hruns', hruns, hnext, h.ledger]
      · dsimp only
        by_cases hpreview : request.preview = true
        · rw [if_pos hpreview, if_pos hpreview]
          exact h.store
        · rw [if_neg hpreview, if_neg hpreview]
          exact hs.applyAll hkeys

/-- **Isolation of sessions.** Let two engines be the same but for the facts of other sessions than
that of a request, and let a formula have no look-ups when it is expanded. Then the run of the
formula fails with the same error in both engines, or it succeeds in both with the same report, and
afterwards the engines are the same but for the facts of other sessions. -/
theorem runFormula_isolated (h : SameWithin request.session e e')
    (hreferences : ∀ compiled, e.compile f = .ok compiled →
      compiled.statement.expr.hasReferences = false) :
    (e'.runFormula f request).1 = (e.runFormula f request).1 ∧
      SameWithin request.session (e.runFormula f request).2 (e'.runFormula f request).2 := by
  cases hplan : e.plan f request with
  | error err =>
    -- Both runs are refused before they begin.
    have hrun : e.runFormula f request = (.error err, e) := by simp only [runFormula, hplan]
    have hrun' : e'.runFormula f request = (.error err, e') := by
      simp only [runFormula, h.plan_eq, hplan]
    rw [hrun, hrun']
    exact ⟨rfl, h⟩
  | ok p =>
    have hplan' := h.plan_eq.trans hplan
    have hp := plan_eq_ok hplan
    by_cases hactive : e.store.inUnit = true
    · have hactive' : e'.store.inUnit = true := h.store.inUnit.trans hactive
      rcases runFormula_cases hplan with ⟨err, after, hrun, hfails⟩ | ⟨hfree, -⟩
      · rcases runFormula_cases hplan' with ⟨err', after', hrun', hfails'⟩ | ⟨hfree', -⟩
        · rw [hrun, hrun', hfails.active hactive, hfails'.active hactive']
          exact ⟨rfl, h.failed hfails hfails'⟩
        · exact absurd hactive' (Bool.eq_false_iff.mp hfree')
      · exact absurd hactive (Bool.eq_false_iff.mp hfree)
    · have hfree := Bool.eq_false_iff.mpr hactive
      obtain ⟨batch, stored, s, hensure, hleft⟩ := exists_outcome hplan hfree
      obtain ⟨batch', stored', s', hensure', hright⟩ :=
        exists_outcome hplan' (h.store.inUnit.trans hfree)
      obtain ⟨t, ht, hs⟩ := h.store.ensureBatch hensure
      rw [hensure'] at ht
      cases ht
      exact h.outcome hp (hreferences _ (compile_eq_of_plan hplan)) hs hleft hright

/-- The small plan with a batch of the second session in which there is one fact. -/
private def smallPlanBeside (value : Decimal) : Engine :=
  { smallPlan with
    store := (smallStore.withBatch { session := 2, action := .delta }).written
      ({ smallCell 1 with session := 2 }.inBatch 2) { value } id }

private def total : PlanFormula := { name := "total", text := "[REV] = SUM:[REV]" }

private def compiledTotal : CompiledFormula where
  name := "total"
  statement := ⟨{ keyFigure := .id 1 }, .cell { aggregate := some .sum, keyFigure := .id 1 }⟩
  loops := []
  hasReferences := false

private def thirty : Decimal := ⟨false, 300000, 4, by decide, by decide⟩

/-- The report of adding up the revenues of the first session. -/
private def totalled : RunReport where
  id := 1
  source := .formula "total"
  preview := false
  entries := [{ key := (smallCell 1).inBatch 1, cellName := "REV", oldValue := ten,
                newValue := thirty, seq := 0 }]

/-- The revenues of the first session are added up alike, whatever the second session has. -/
theorem runFormula_isolated_smallPlan :
    (smallPlanBeside ten).store ≠ (smallPlanBeside twenty).store ∧
      ((smallPlanBeside twenty).runFormula total { session := 1, period := some "01" }).1 =
        .ok totalled ∧
      SameWithin 1
        ((smallPlanBeside ten).runFormula total { session := 1, period := some "01" }).2
        ((smallPlanBeside twenty).runFormula total { session := 1, period := some "01" }).2 := by
  have hsame : SameWithin (RunRequest.session { session := 1, period := some "01" })
      (smallPlanBeside ten) (smallPlanBeside twenty) := by
    refine ⟨rfl, rfl, rfl, rfl, rfl, rfl, rfl, rfl, rfl, rfl, fun key hkey ↦ ?_⟩
    have hne : key ≠ { smallCell 1 with session := 2 }.inBatch 2 := by
      rintro rfl
      cases hkey
    exact (SortedMap.get?_insert_of_ne _ _ hne).trans (SortedMap.get?_insert_of_ne _ _ hne).symm
  have hcompile : (smallPlanBeside ten).compile total = .ok compiledTotal := by
    decide +kernel
  have hreferences : ∀ compiled, (smallPlanBeside ten).compile total = .ok compiled →
      compiled.statement.expr.hasReferences = false := by
    intro compiled h
    rw [hcompile] at h
    cases h
    decide +kernel
  have hrun : ((smallPlanBeside ten).runFormula total { session := 1, period := some "01" }).1 =
      .ok totalled := by
    decide +kernel
  obtain ⟨hresult, hafter⟩ := runFormula_isolated hsame hreferences
  exact ⟨by decide +kernel, hresult.trans hrun, hafter⟩

end Engine

end PlanLedger
