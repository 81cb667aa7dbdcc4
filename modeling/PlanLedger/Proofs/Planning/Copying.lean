import PlanLedger.Proofs.Planning.Integrity
import PlanLedger.Proofs.Planning.Outcome
import PlanLedger.Proofs.Planning.Written
import PlanLedger.Proofs.Store.History

/-!
# Copying is exact

A copy writes the current facts of a session, or those of one period, to a new batch of the session
of another version and year. The cells of the facts are moved there by giving them the session, the
version and the year of the target. Cells of a session have the version and the year of the session,
so no two of them are moved to one cell, and moving a cell back gives the cell that was moved.

That is so because cells are made by the engine, which takes the version and the year from the
session. A reachable engine may also hold facts that were put into its store directly, under any
version and year; two of those can be moved to one cell. So the main result is about engines in use
(`Engine.InUse`), whose facts are loaded to cells that the engine made, or written by its runs.

The new batch is newer than anything the target had, so the cells that were written are read from
it, and all other cells keep the facts that they had.
-/

namespace PlanLedger

open Contents
open Working (run_lift_bind_eq_ok run_store_bind_eq_ok run_onStore_bind_eq_ok run_pure_eq_ok
  not_run_throw_eq_ok)

/-! ## Moving cells -/

/-- A cell of a session that is planned for a version and a year. -/
structure Cell.IsOf (c : Cell) (session : SessionId) (version year : DimId) : Prop where
  session_eq : c.session = session
  version_eq : c.version = version
  year_eq : c.year = year

theorem isOf_copiedCell (target : SessionId) (version year : DimId) (c : Cell) :
    (copiedCell target version year c).IsOf target version year := ⟨rfl, rfl, rfl⟩

theorem copiedCell_copiedCell {c : Cell} {session : SessionId} {version year : DimId}
    (h : c.IsOf session version year) (target : SessionId) (version' year' : DimId) :
    copiedCell session version year (copiedCell target version' year' c) = c := by
  obtain ⟨rfl, rfl, rfl⟩ := h
  rfl

theorem copiedCell_inj {c c' : Cell} {session : SessionId} {version year : DimId}
    (h : c.IsOf session version year) (h' : c'.IsOf session version year) {target : SessionId}
    {version' year' : DimId}
    (heq : copiedCell target version' year' c = copiedCell target version' year' c') : c = c' := by
  rw [← copiedCell_copiedCell h target version' year', heq,
    copiedCell_copiedCell h' target version' year']

/-! ## The work of a copy -/

def copyBatch (target source : SessionId) : Batch :=
  { session := target, action := .overwrite, description := "copy of session " ++ toString source }

/-- The writes of copying facts to the next batch of a store. The old values are looked up among the
facts of the target. -/
def copyWrites (x : WorkContext) (s : Store) (f : Filter) (target : SessionId)
    (version year : DimId) (facts : List Fact) : List Write :=
  let before := valuesByCell (s.selectCurrent f (.ofSession target))
  let place := copiedCell target version year
  facts.map fun fact ↦ x.putWrite ((place fact.cell).inBatch (s.lastBatch + 1)) fact.values
    ((before.get? (place fact.cell)).getD .zero)

variable {x : WorkContext} {toVersion year : String} {period : Option String} {b b' : Books}
  {t : Tally}

/-- A copy finds no facts and does nothing, or it writes copies of the facts to a new batch of the
target. -/
theorem run_copy_eq_ok (h : (copy x toVersion year period).run b = .ok t b') :
    ∃ version yearId f, x.registry.resolve .version toVersion = .ok version ∧
      x.registry.resolve .year year = .ok yearId ∧ x.periodFilter period = .ok f ∧
      (b.store.selectCurrent f x.scope = [] ∧ t = {} ∧ b' = b ∨
        b.store.selectCurrent f x.scope ≠ [] ∧ ∃ target found s,
          b.store.findOrCreateSession version yearId = ((target, found), s) ∧
          target ≠ x.sessionId ∧ t = ⟨(b.store.selectCurrent f x.scope).length, []⟩ ∧
          Books.Wrote x.run
            (copyWrites x s f target version yearId (b.store.selectCurrent f x.scope))
            { b with store := s.withBatch (copyBatch target x.sessionId) } b') := by
  obtain ⟨version, hversion, h⟩ := run_lift_bind_eq_ok.mp h
  obtain ⟨yearId, hyear, h⟩ := run_lift_bind_eq_ok.mp h
  obtain ⟨f, hfilter, h⟩ := run_lift_bind_eq_ok.mp h
  refine ⟨version, yearId, f, PlanningError.ofRegistry_eq_ok.mp hversion,
    PlanningError.ofRegistry_eq_ok.mp hyear, hfilter, ?_⟩
  rw [run_store_bind_eq_ok] at h
  dsimp only at h
  split at h
  · rename_i hnone
    obtain ⟨rfl, rfl⟩ := run_pure_eq_ok.mp h
    exact .inl ⟨List.isEmpty_iff.mp hnone, rfl, rfl⟩
  · rename_i hsome
    obtain ⟨⟨target, found⟩, s, hfound, h⟩ := run_onStore_bind_eq_ok.mp h
    dsimp only at h
    split at h
    · exact absurd h not_run_throw_eq_ok
    · rename_i hapart
      obtain ⟨created, s', hcreated, hwork⟩ :=
        run_onStore_bind_eq_ok.mp (run_store_bind_eq_ok.mp h)
      obtain ⟨-, rfl, rfl⟩ := Store.createBatch_eq_ok hcreated
      have hwrites : Working.Writes x.run
          (copyWrites x s f target version yearId (b.store.selectCurrent f x.scope)) []
          (tallyOver (copyFact x (valuesByCell (s.selectCurrent f (.ofSession target)))
            (s.lastBatch + 1) (copiedCell target version yearId))
              (b.store.selectCurrent f x.scope)) :=
        .tallyOver_map fun fact _ ↦ .put x _ fact.values _
      obtain ⟨rfl, hwrote⟩ := hwrites _ t b' hwork
      refine .inr ⟨fun hnone ↦ hsome (List.isEmpty_iff.mpr hnone), target, found, s,
        Except.ok.inj hfound, hapart, ?_, hwrote⟩
      rw [copyWrites, List.length_map]

theorem run_copy_of_eq_nil {version yearId : DimId} {f : Filter}
    (hversion : x.registry.resolve .version toVersion = .ok version)
    (hyear : x.registry.resolve .year year = .ok yearId)
    (hfilter : x.periodFilter period = .ok f) (hnone : b.store.selectCurrent f x.scope = []) :
    (copy x toVersion year period).run b = .ok {} b := by
  refine run_lift_bind_eq_ok.mpr ⟨version, PlanningError.ofRegistry_eq_ok.mpr hversion,
    run_lift_bind_eq_ok.mpr ⟨yearId, PlanningError.ofRegistry_eq_ok.mpr hyear,
      run_lift_bind_eq_ok.mpr ⟨f, hfilter, run_store_bind_eq_ok.mpr ?_⟩⟩⟩
  rw [hnone]
  rfl

/-! ## Periods -/

/-- The filter that asks for a period, if there is one. -/
def Filter.ofPeriod : Option DimId → Filter
  | none => ∅
  | some id => .ofList [(.period, id)]

/-- A filter on a period selects of a session what the scope of the period does. -/
theorem Store.selectCurrent_ofPeriod (s : Store) (session : SessionId) (period : Option DimId) :
    s.selectCurrent (.ofPeriod period) (.ofSession session) =
      s.selectCurrent ∅ (.ofSession session period) := by
  have hselects : ∀ c, Filter.selects (.ofPeriod period) (.ofSession session) c =
      (∅ : Filter).selects (.ofSession session period) c := by
    intro c
    cases period with
    | none => rfl
    | some id =>
      have hasked : (Filter.ofPeriod (some id)).admits c = (c.period == id) := by
        have hone : (Filter.ofPeriod (some id)).toList = [(.period, id)] := rfl
        simp [Filter.admits, hone, Cell.get?]
      have hnothing : (∅ : Filter).admits c = true := rfl
      have hopen : (∅ : Filter).contains .period = false := rfl
      simp [Filter.selects, hasked, hnothing, hopen, Scope.contains, Scope.holdsSession,
        Scope.holdsPeriod, Scope.ofSession]
  rw [selectCurrent, selectCurrent, select, select]
  simp only [hselects]

/-! ## The store after a copy -/

/-- Facts of a session were copied to the session of a version and a year. -/
structure Store.Copied (s s' : Store) (facts : List Fact) (source : SessionId) (session : Session)
    (target : SessionId) (version year : DimId) : Prop where
  apart : target ≠ source
  /-- The session of the version and year is the target, or there was none and it was added. -/
  found : (∃ found, s.findSession? version year = some (target, found) ∧
      s'.sessions = s.sessions) ∨
    s.findSession? version year = none ∧ s.sessions.get? target = none ∧
      s'.sessions = s.sessions.insert target { version, year }
  /-- A cell of the target has the values of the fact that was copied to it. -/
  copied : ∀ c, c.IsOf target version year → ∀ fact ∈ facts,
    fact.cell = copiedCell source session.version session.year c →
      s'.currentValues? c = some fact.values
  /-- All other cells have the facts that they had. -/
  others : ∀ c, (c.IsOf target version year → ∀ fact ∈ facts,
    fact.cell ≠ copiedCell source session.version session.year c) →
      s'.currentFact? c = s.currentFact? c
  outside : s.SameOutside s'.toContents target
  /-- One batch was added, and it holds the copies. -/
  batch : ∃ id batch, batch.session = target ∧ batch.action = .overwrite ∧
    s.AddsBatch s'.toContents id batch ∧
    ((s'.factsIn id).map Fact.reading).Perm
      (facts.map fun fact ↦ (copiedCell target version year fact.cell, fact.values))

namespace Store

variable {s s₁ : Store} {f : Filter} {source target : SessionId} {session found : Session}
  {version yearId : DimId}

/-- The session of a version and a year was there, or it was added under a free number. -/
theorem findOrCreateSession_cases (hs : s.WellFormed)
    (h : s.findOrCreateSession version yearId = ((target, found), s₁)) :
    (∃ found, s.findSession? version yearId = some (target, found) ∧ s₁.sessions = s.sessions) ∨
      s.findSession? version yearId = none ∧ s.sessions.get? target = none ∧
        s₁.sessions = s.sessions.insert target { version, year := yearId } := by
  rw [findOrCreateSession] at h
  cases hfound : s.findSession? version yearId with
  | some _ =>
    rw [hfound] at h
    cases h
    exact .inl ⟨found, rfl, rfl⟩
  | none =>
    rw [hfound] at h
    cases h
    exact .inr ⟨rfl, hs.get?_next_session, rfl⟩

variable {x : WorkContext} {facts : List Fact}

theorem truthful_copyWrites (hs : s.WellFormed) (new : Batch) (hf : ∀ e ∈ f.toList, e.1 = .period)
    {scope : Scope} (hfacts : ∀ fact ∈ facts, f.selects scope fact.cell = true) :
    ∀ w ∈ copyWrites x s f target version yearId facts,
      w.Truthful (s.withBatch new) fun _ ↦ s.lastBatch + 1 := by
  intro w hw
  obtain ⟨fact, hfact, rfl⟩ := List.mem_map.mp hw
  refine truthful_withBatch hs new rfl ?_
  -- The old value is looked up in a selection of the target that holds the copied cell.
  have hreached := selects_copiedCell hf (hfacts fact hfact) target version yearId
  show ((valuesByCell (s.selectCurrent f (.ofSession target))).get? _).getD _ = _
  rw [get?_valuesByCell_selectCurrent hreached]
  rfl

theorem onDifferentCells_copyWrites {version' year' : DimId}
    (hof : ∀ fact ∈ facts, fact.cell.IsOf source version' year')
    (hincreasing : facts.Pairwise fun a b ↦ compare a.cell b.cell = .lt) :
    Write.OnDifferentCells (copyWrites x s f target version yearId facts) := by
  refine List.pairwise_map.mpr (hincreasing.imp_of_mem fun {a b} ha hb hlt hcell ↦ ?_)
  have hsame : a.cell = b.cell := copiedCell_inj (hof a ha) (hof b hb) hcell
  rw [hsame, Std.compare_self] at hlt
  cases hlt

/-- The store with copies of facts in a new batch. -/
def withCopies (s : Store) (x : WorkContext) (f : Filter) (source target : SessionId)
    (version year : DimId) (facts : List Fact) : Store :=
  Write.applyAll (s.withBatch (copyBatch target source))
    (copyWrites x s f target version year facts)

theorem rowsWritten_withCopies (s : Store) (x : WorkContext) (f : Filter)
    (source target : SessionId) (version year : DimId) (facts : List Fact) :
    (s.withBatch (copyBatch target source)).RowsWritten
      (s.withCopies x f source target version year facts).toContents
      fun key ↦ key.batch = s.lastBatch + 1 ∧ key.session = target := by
  refine (Write.rowsWritten_applyAll _ _).mono ?_
  rintro key ⟨w, hw, rfl⟩
  obtain ⟨fact, -, rfl⟩ := List.mem_map.mp hw
  exact ⟨rfl, rfl⟩

theorem currentFact?_withCopies {c : Cell}
    (h : ∀ fact ∈ facts, copiedCell target version yearId fact.cell ≠ c) :
    (s.withCopies x f source target version yearId facts).currentFact? c = s.currentFact? c := by
  refine (Write.currentFact?_applyAll_of_forall_ne fun w hw ↦ ?_).trans
    (currentFact?_of_facts rfl c)
  obtain ⟨fact, hfact, rfl⟩ := List.mem_map.mp hw
  exact h fact hfact

section

variable (hs : s.WellFormed) (hf : ∀ e ∈ f.toList, e.1 = .period) {scope : Scope}
  (hselects : ∀ fact ∈ facts, f.selects scope fact.cell = true) {version' year' : DimId}
  (hof : ∀ fact ∈ facts, fact.cell.IsOf source version' year')
  (hincreasing : facts.Pairwise fun a b ↦ compare a.cell b.cell = .lt)

include hs hof hincreasing

theorem perm_readings_withCopies :
    (((s.withCopies x f source target version yearId facts).factsIn (s.lastBatch + 1)).map
      Fact.reading).Perm
        (facts.map fun fact ↦ (copiedCell target version yearId fact.cell, fact.values)) := by
  have hdiffer : Write.OnDifferentCells (copyWrites x s f target version yearId facts) :=
    onDifferentCells_copyWrites hof hincreasing
  have hbatch : ∀ w ∈ copyWrites x s f target version yearId facts,
      w.key.batch = s.lastBatch + 1 := by
    intro w hw
    obtain ⟨fact, -, rfl⟩ := List.mem_map.mp hw
    rfl
  have hperm := Write.perm_readings_of_newBatch hs (copyBatch target source) hdiffer hbatch
  rw [copyWrites, List.map_map] at hperm
  exact hperm

include hf hselects

theorem currentValues?_withCopies {fact : Fact} (hfact : fact ∈ facts) :
    (s.withCopies x f source target version yearId facts).currentValues?
      (copiedCell target version yearId fact.cell) = some fact.values :=
  Write.currentValues?_applyAll (truthful_copyWrites hs _ hf hselects)
    (onDifferentCells_copyWrites hof hincreasing) (List.mem_map_of_mem hfact)

end

/-- **Copies.** If the facts of a session have cells of the session, the copies of those that a
filter on periods selects are exact. -/
theorem copied_withCopies (hs : s.WellFormed) (hf : ∀ e ∈ f.toList, e.1 = .period)
    (hof : ∀ fact ∈ s.selectCurrent f (.ofSession source),
      fact.cell.IsOf source session.version session.year)
    (hfound : s.findOrCreateSession version yearId = ((target, found), s₁))
    (hapart : target ≠ source) :
    s.Copied
      (s₁.withCopies x f source target version yearId (s.selectCurrent f (.ofSession source)))
      (s.selectCurrent f (.ofSession source)) source session target version yearId := by
  have hfacts : s₁.facts = s.facts := by
    have h := s.facts_findOrCreateSession version yearId
    rwa [hfound] at h
  have hbatches : s₁.batches = s.batches := by
    have h := s.batches_findOrCreateSession version yearId
    rwa [hfound] at h
  have hs₁ : s₁.WellFormed := by
    have h := s.edit_findOrCreateSession version yearId
    rw [hfound] at h
    exact hs.edit h
  have hselects : ∀ fact ∈ s.selectCurrent f (.ofSession source),
      f.selects (.ofSession source) fact.cell = true :=
    fun fact hfact ↦ (mem_selectCurrent_iff.mp hfact).2
  have hincreasing := s.selectCurrent_increasing f (.ofSession source)
  generalize s.selectCurrent f (.ofSession source) = facts at hof hselects hincreasing ⊢
  have hrows := s₁.rowsWritten_withCopies x f source target version yearId facts
  obtain ⟨-, houtside, hadds, hsessions⟩ := frame_of_rowsWritten hrows hs₁ fun _ hkey ↦ hkey
  refine ⟨hapart, ?_, fun c hc fact hfact hcell ↦ ?_, fun c hc ↦ ?_,
    houtside.of_same hfacts hbatches, s₁.lastBatch + 1, copyBatch target source, rfl, rfl,
    hadds.of_same hfacts hbatches, perm_readings_withCopies hs₁ hof hincreasing⟩
  · rw [hsessions]
    exact findOrCreateSession_cases hs hfound
  · -- The cell is the one that the cell of the fact is moved to.
    have hmoved : copiedCell target version yearId fact.cell = c := by
      rw [hcell, copiedCell_copiedCell hc]
    rw [← hmoved]
    exact currentValues?_withCopies hs₁ hf hselects hof hincreasing hfact
  · rw [← currentFact?_of_facts hfacts c]
    refine currentFact?_withCopies fun fact hfact hmoved ↦ ?_
    subst hmoved
    refine hc (isOf_copiedCell _ _ _ _) fact hfact ?_
    rw [copiedCell_copiedCell (hof fact hfact)]

end Store

/-! ## Copying in an engine -/

namespace Engine

variable {r : Registry} {e : Engine} {cells : List Cell}

theorem inUnit_perform (h : e.store.inUnit = false) (call : RunCall) :
    (e.perform call).2.store.inUnit = false := by
  have hcall := e.performed call
  generalize (e.perform call).1 = result at hcall
  generalize (e.perform call).2 = e' at hcall ⊢
  cases hcall with
  | refused err _ => exact h
  | failed err _ _ fails =>
    rw [fails.same.store]
    exact h
  | done _ _ _ _ ended _ => exact ended

theorem InUse.inUnit_eq_false (h : InUse r e cells) : e.store.inUnit = false := by
  induction h with
  | new ledger catalog options => rfl
  | createSession h name version year orgUnit ih =>
    rw [after]
    split
    · obtain ⟨-, -, -, rfl⟩ := createSession_eq_ok ‹_›
      exact ih
    · exact ih
  | cell h hc ih => exact ih
  | loadFact h hc values ih =>
    rw [after]
    split
    · obtain ⟨found, s, hensure, -, rfl⟩ := loadFact_eq_ok ‹_›
      rw [Store.inUnit, ← Store.saved_ensureBatch hensure] at ih
      exact ih
    · exact ih
  | run h call ih => exact inUnit_perform ih call
  | setUp h catalog options ih => exact ih

theorem session_of_sessionOfWork {id : SessionId} {session : Session}
    (h : e.sessionOfWork id = .ok session) : e.store.session id = .ok session := by
  rw [sessionOfWork] at h
  obtain ⟨_, -, h⟩ := bind_eq_ok.mp h
  exact PlanningError.ofStore_eq_ok.mp h

theorem InUse.isOf (hr : r.Built) (h : InUse r e cells) {id : SessionId} {session : Session}
    (hsession : e.store.session id = .ok session) {f : Filter} {fact : Fact}
    (hfact : fact ∈ e.store.selectCurrent f (.ofSession id)) :
    fact.cell.IsOf id session.version session.year := by
  obtain ⟨hnewest, hselects⟩ := Store.mem_selectCurrent_iff.mp hfact
  have hid : fact.cell.session = id := Filter.session_of_selects hselects
  obtain ⟨stored, hstored, hversion, hyear⟩ :=
    ((h.sound hr).intact.of_mem_allFacts hnewest.mem).session
  rw [hid, Store.session_eq_ok_iff.mp hsession, Option.some_inj] at hstored
  subst hstored
  exact ⟨hid, hversion, hyear⟩

theorem periodFilter_workContext (e : Engine) (id : SessionId) (session : Session) (run : RunId)
    (period : Option String) : (e.workContext id session run).periodFilter period =
      (e.resolveOption .period period).map Filter.ofPeriod := by
  cases period with
  | none => rfl
  | some text =>
    rw [WorkContext.periodFilter, resolveOption, resolve]
    show (PlanningError.ofRegistry (e.registry.resolve .period text) >>= _) = _
    cases PlanningError.ofRegistry (e.registry.resolve .period text) <;> rfl

/-- While a function runs, a filter on a period selects of a session what the scope of the period
selects of it before. -/
theorem selectCurrent_begun (e : Engine) (source : RunSource) (id : SessionId)
    (periodId : Option DimId) :
    (e.begun source false).store.selectCurrent (.ofPeriod periodId) (.ofSession id) =
      e.store.selectCurrent ∅ (.ofSession id periodId) :=
  e.store.selectCurrent_ofPeriod id periodId

/-- What the codes of a copy stand for. -/
structure NamesTarget (e : Engine) (toVersion year : String) (period : Option String)
    (version yearId : DimId) (periodId : Option DimId) : Prop where
  version : e.resolve .version toVersion = .ok version
  year : e.resolve .year year = .ok yearId
  period : e.resolveOption .period period = .ok periodId

theorem exists_outcome_of_copy {id : SessionId} {session : Session} {toVersion year : String}
    {period : Option String} {version yearId : DimId} {periodId : Option DimId}
    (hfree : e.store.inUnit = false) (hsession : e.sessionOfWork id = .ok session)
    (hnames : e.NamesTarget toVersion year period version yearId periodId)
    (hnone : e.store.selectCurrent ∅ (.ofSession id periodId) = []) :
    ∃ outcome, (e.runFunction (.copy toVersion year period) id).1 = .ok outcome := by
  have hfilter : (e.workContext id session e.nextRun).periodFilter period =
      .ok (.ofPeriod periodId) := by
    rw [periodFilter_workContext, hnames.period]
    rfl
  have hempty : (e.begun (.function "copy") false).store.selectCurrent (.ofPeriod periodId)
      (.ofSession id) = [] := (selectCurrent_begun e _ id periodId).trans hnone
  have hwork := run_copy_of_eq_nil (x := e.workContext id session e.nextRun)
    (b := e.begun (.function "copy") false) (PlanningError.ofRegistry_eq_ok.mp hnames.version)
    (PlanningError.ofRegistry_eq_ok.mp hnames.year) hfilter hempty
  exact ⟨_, runFunction_of_ok (f := .copy toVersion year period) hsession hfree hwork⟩

/-- Copies of the facts of a session or of one of its periods are exact, in an engine in use while a
function runs. -/
theorem InUse.copied (hr : r.Built) (h : InUse r e cells) {id target : SessionId}
    {session found : Session} (hsession : e.store.session id = .ok session) {version yearId : DimId}
    {periodId : Option DimId} (hkeys : ∀ asked ∈ (Filter.ofPeriod periodId).toList,
      asked.1 = .period) {source : RunSource} {s : Store}
    (hfound : (e.begun source false).store.findOrCreateSession version yearId =
      ((target, found), s)) (hapart : target ≠ id) (x : WorkContext) :
    (e.begun source false).store.Copied
      (s.withCopies x (.ofPeriod periodId) id target version yearId
        (e.store.selectCurrent ∅ (.ofSession id periodId)))
      (e.store.selectCurrent ∅ (.ofSession id periodId)) id session target version yearId := by
  have hof : ∀ fact ∈ (e.begun source false).store.selectCurrent (.ofPeriod periodId)
      (.ofSession id), fact.cell.IsOf id session.version session.year :=
    fun _ hfact ↦ h.isOf hr hsession hfact
  rw [← selectCurrent_begun e source id periodId]
  exact Store.copied_withCopies (wellFormed_begun h.reachable.wellFormed source false) hkeys hof
    hfound hapart

/-- **Copying.** In an engine in use, where all cells are made by the engine and so have the version
and the year of their session, a copy of a session that has no facts, or none in the period that is
asked for, succeeds if its codes stand for a version, a year and possibly a period. A copy that
succeeds counts the current facts of the session or of the period. If there are none, nothing is
done at all. Otherwise they are copied to the session of the version and the year, which is added if
there is none: a batch with a copy of each of them is added to it, the cells that correspond to them
are read with their values from then on, and everything else stays exactly as it was. -/
theorem copy_exact (hr : r.Built) (h : InUse r e cells) (id : SessionId) (toVersion year : String)
    (period : Option String) :
    (∀ session version yearId periodId, e.sessionOfWork id = .ok session →
      e.NamesTarget toVersion year period version yearId periodId →
        e.store.selectCurrent ∅ (.ofSession id periodId) = [] →
          ∃ outcome, (e.runFunction (.copy toVersion year period) id).1 = .ok outcome) ∧
    ∀ outcome, (e.runFunction (.copy toVersion year period) id).1 = .ok outcome →
      ∃ session version yearId periodId, e.sessionOfWork id = .ok session ∧
        e.NamesTarget toVersion year period version yearId periodId ∧
        outcome.affected = (e.store.selectCurrent ∅ (.ofSession id periodId)).length ∧
        (e.store.selectCurrent ∅ (.ofSession id periodId) = [] →
          (e.runFunction (.copy toVersion year period) id).2.store = e.store ∧
            outcome.entries = []) ∧
        (e.store.selectCurrent ∅ (.ofSession id periodId) ≠ [] → ∃ target,
          e.store.Copied (e.runFunction (.copy toVersion year period) id).2.store
            (e.store.selectCurrent ∅ (.ofSession id periodId)) id session target version
              yearId) := by
  refine ⟨fun session version yearId periodId hsession hnames hnone ↦
    exists_outcome_of_copy h.inUnit_eq_false hsession hnames hnone, fun outcome hrun ↦ ?_⟩
  obtain ⟨hsaved, session, tally, worked, hsession, hwork, rfl, hstore⟩ :=
    exists_work_of_runFunction hrun
  obtain ⟨version, yearId, f, hversion, hyear, hfilter, hcases⟩ := run_copy_eq_ok hwork
  have hkeys := periodFilter_keys hfilter
  rw [periodFilter_workContext] at hfilter
  obtain ⟨periodId, hperiod, rfl⟩ := map_eq_ok.mp hfilter
  have hselected := selectCurrent_begun e (.function "copy") id periodId
  refine ⟨session, version, yearId, periodId, hsession,
    ⟨PlanningError.ofRegistry_eq_ok.mpr hversion, PlanningError.ofRegistry_eq_ok.mpr hyear,
      hperiod⟩, ?_⟩
  rcases hcases with
    ⟨hnone, rfl, rfl⟩ | ⟨hsome, target, found, s, hfound, hapart, rfl, hwrote⟩
  · have hempty := hselected.symm.trans hnone
    refine ⟨by rw [hempty]; rfl, fun _ ↦ ⟨?_, ?_⟩, fun hsome ↦ absurd hempty hsome⟩
    · rw [hstore, ← hsaved]
      rfl
    · show (e.begun (.function "copy") false).ledger.entries e.nextRun = []
      rw [Ledger.entries, run?_begun]
      rfl
  · refine ⟨congrArg List.length hselected, fun hempty ↦ ?_, fun _ ↦ ⟨target, ?_⟩⟩
    · exact absurd (hselected.trans hempty) hsome
    · have hcopied := h.copied hr (session_of_sessionOfWork hsession) hkeys hfound hapart
        (e.workContext id session e.nextRun)
      have hworked : worked.store = s.withCopies (e.workContext id session e.nextRun)
          (.ofPeriod periodId) id target version yearId
            (e.store.selectCurrent ∅ (.ofSession id periodId)) := by
        rw [hwrote.store, ← hselected]
        rfl
      rw [← hworked] at hcopied
      rw [hstore]
      -- Beginning and ending the unit of work changes nothing that is read.
      exact ⟨hcopied.apart, hcopied.found, hcopied.copied, hcopied.others, hcopied.outside,
        hcopied.batch⟩

/-- Values for a plan with two versions and two organisational units. -/
private def versionValues : List (Dimension × DimensionValue) :=
  [(.version, { id := 1, code := "PLAN" }), (.version, { id := 2, code := "FCST" }),
    (.year, { id := 1, code := "2024" }), (.period, { id := 1, code := "01" }),
    (.orgUnit, { id := 1, code := "O1" }), (.orgUnit, { id := 2, code := "O2" }),
    (.keyFigure, { id := 1, code := "REV" })]

/-- The registry of the values for two versions. -/
private def versionRegistry : Registry :=
  match versionValues.foldlM (fun r p ↦ Registry.add r p.1 p.2) .initial with
  | .ok r => r
  | .error _ => .initial

/-- An engine with a session for each of the two versions. -/
private def twoVersions : Engine :=
  (Engine.after { registry := versionRegistry } (.createSession "" "PLAN" "2024" none)).after
    (.createSession "" "FCST" "2024" none)

private def forecastCell (orgUnit : DimId) : Cell :=
  { session := 2, version := 2, year := 1, period := 1, orgUnit, keyFigure := 1 }

/-- The engine with a fact in euros in the first version, and two facts in the second one. -/
private def forecastPlan : Engine :=
  ((twoVersions.after (.loadFact (smallCell 1) { value := ten, unit := some "EUR" })).after
    (.loadFact (forecastCell 1) { value := twenty })).after
      (.loadFact (forecastCell 2) { value := twenty })

private theorem built_versionRegistry : versionRegistry.Built := by
  have hadded :
      versionValues.foldlM (fun r p ↦ Registry.add r p.1 p.2) .initial = .ok versionRegistry := by
    decide +kernel
  exact of_foldlM_eq_ok hadded .initial fun _ _ _ _ hr hadd ↦ hr.add hadd

private theorem inUse_forecastPlan :
    InUse versionRegistry forecastPlan [forecastCell 2, forecastCell 1, smallCell 1] := by
  have hsessions : InUse versionRegistry twoVersions [] :=
    ((InUse.new _ _ _).createSession _ _ _ _).createSession _ _ _ _
  have hplan : twoVersions.cell 1 "REV" [("Period", "01"), ("OrgUnit", "O1")] =
      .ok (smallCell 1) := by
    decide +kernel
  have hfirst : twoVersions.cell 2 "REV" [("Period", "01"), ("OrgUnit", "O1")] =
      .ok (forecastCell 1) := by
    decide +kernel
  have hsecond : twoVersions.cell 2 "REV" [("Period", "01"), ("OrgUnit", "O2")] =
      .ok (forecastCell 2) := by
    decide +kernel
  have hmade := ((hsessions.cell hplan).cell hfirst).cell hsecond
  exact ((hmade.loadFact (by simp) _).loadFact (by simp) _).loadFact (by simp) _

/-- The fact of the first version is copied over the first fact of the second version, whose other
fact stays as it was. -/
theorem copy_exact_forecastPlan : ∃ outcome target,
    (forecastPlan.runFunction (.copy "FCST" "2024" none) 1).1 = .ok outcome ∧
      outcome.affected = 1 ∧
      forecastPlan.store.Copied (forecastPlan.runFunction (.copy "FCST" "2024" none) 1).2.store
        (forecastPlan.store.selectCurrent ∅ (.ofSession 1)) 1 { version := 1, year := 1 } target
          2 1 ∧
      (forecastPlan.runFunction (.copy "FCST" "2024" none) 1).2.store.currentValues?
        (forecastCell 1) = some { value := ten, unit := some "EUR" } ∧
      (forecastPlan.runFunction (.copy "FCST" "2024" none) 1).2.store.currentFact?
        (forecastCell 2) = forecastPlan.store.currentFact? (forecastCell 2) := by
  obtain ⟨outcome, hrun⟩ : ∃ outcome,
      (forecastPlan.runFunction (.copy "FCST" "2024" none) 1).1 = .ok outcome :=
    exists_eq_ok (by decide +kernel)
  obtain ⟨session, version, yearId, periodId, hsession, hnames, hcount, -, hcopied⟩ :=
    (copy_exact built_versionRegistry inUse_forecastPlan 1 "FCST" "2024" none).2 outcome hrun
  obtain rfl : none = periodId := Except.ok.inj hnames.period
  obtain rfl : { version := 1, year := 1 } = session :=
    Except.ok.inj (Eq.trans (by decide +kernel) hsession)
  obtain rfl : 2 = version := Except.ok.inj (Eq.trans (by decide +kernel) hnames.version)
  obtain rfl : 1 = yearId := Except.ok.inj (Eq.trans (by decide +kernel) hnames.year)
  obtain ⟨target, hcopied⟩ := hcopied (by decide +kernel)
  exact ⟨outcome, target, hrun, hcount.trans (by decide +kernel), hcopied, by decide +kernel,
    by decide +kernel⟩

end Engine

end PlanLedger
