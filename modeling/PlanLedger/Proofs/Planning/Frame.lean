import PlanLedger.Proofs.Planning.Combinations
import PlanLedger.Proofs.Planning.Placement
import PlanLedger.Proofs.Planning.Reachable
import PlanLedger.Proofs.Store.Frame

/-!
# What runs leave alone

Each run works on one session. Distributing, converting and resetting restate current facts of it,
reposting adds a batch to it, copying adds a batch to the session of the target, and a formula
writes rows of its newest batch. Everything else stays exactly as it was, and nothing is ever
removed. This is read off from where the writes of a run go.
-/

namespace PlanLedger

open Contents

variable {run : RunId} {ws : List Write} {b b' : Books}

/-! ## Where writes go -/

theorem Write.rowsWritten_applyAll (s : Store) (ws : List Write) :
    s.RowsWritten (applyAll s ws).toContents fun key ↦ ∃ w ∈ ws, w.key = key := by
  induction ws generalizing s with
  | nil => exact .refl _ _
  | cons w rest ih =>
    have hfirst := s.rowsWritten_written w.key w.defaults w.change
    have hrest := ih (w.applyTo s)
    refine (hfirst.mono fun key hkey ↦ ?_).trans (hrest.mono fun key hkey ↦ ?_)
    · exact ⟨w, List.mem_cons_self, hkey.symm⟩
    · obtain ⟨w', hw', hkey⟩ := hkey
      exact ⟨w', List.mem_cons_of_mem _ hw', hkey⟩

theorem Books.Wrote.rowsWritten (h : b.Wrote run ws b') :
    b.store.RowsWritten b'.store.toContents fun key ↦ ∃ w ∈ ws, w.key = key := by
  rw [h.store]
  exact Write.rowsWritten_applyAll b.store ws

theorem Books.WroteInPlace.frame {session : SessionId} (h : b.WroteInPlace run session ws b') :
    b.store.Keeps b'.store.toContents ∧ b.store.SameOutside b'.store.toContents session ∧
      b.store.Restated b'.store.toContents := by
  have hrows := h.wrote.rowsWritten
  refine ⟨hrows.keeps, hrows.sameOutside ?_, Store.restated_of_isNewest hrows ?_⟩
  · rintro key ⟨w, hw, rfl⟩
    obtain ⟨fact, hcurrent, hkey, -⟩ := h.replaces w hw
    rw [hkey]
    exact hcurrent.session_eq
  · rintro key ⟨w, hw, rfl⟩
    obtain ⟨fact, hcurrent, hkey, -⟩ := h.replaces w hw
    exact ⟨fact, hcurrent.newest, hkey.symm⟩

/-- Rows that are written to a batch that was just created are all that is added. -/
theorem Store.frame_of_rowsWritten {s : Store} {batch : Batch} {c : Contents}
    {keys : FactKey → Prop} (h : (s.withBatch batch).RowsWritten c keys) (hs : s.WellFormed)
    (hkeys : ∀ key, keys key → key.batch = s.lastBatch + 1 ∧ key.session = batch.session) :
    s.Keeps c ∧ s.SameOutside c batch.session ∧ s.AddsBatch c (s.lastBatch + 1) batch ∧
      c.sessions = s.sessions := by
  have hinside := h.sameOutside fun key hkey ↦ (hkeys key hkey).2
  exact ⟨(keeps_withBatch hs batch).trans h.keeps, (sameOutside_withBatch hs batch).trans hinside,
    addsBatch_of_rowsWritten h hs hkeys, h.sessions⟩

theorem Books.WroteNewBatch.frame {s : Store} {batch : Batch} {cells : Cell → Prop}
    (h : b.WroteNewBatch run s batch cells ws b') (hs : s.WellFormed)
    (hcells : ∀ c, cells c → c.session = batch.session) :
    s.Keeps b'.store.toContents ∧ s.SameOutside b'.store.toContents batch.session ∧
      s.AddsBatch b'.store.toContents (s.lastBatch + 1) batch ∧
      b'.store.sessions = s.sessions := by
  have hrows : (s.withBatch batch).RowsWritten b'.store.toContents fun key ↦
      ∃ w ∈ ws, w.key = key := h.wrote.rowsWritten
  refine Store.frame_of_rowsWritten hrows hs ?_
  rintro key ⟨w, hw, rfl⟩
  exact ⟨h.batch_eq w hw, hcells _ (h.cells w hw)⟩

/-! ## Planning functions -/

/-- What a planning function on a session may do to the contents of a store. -/
def PlanningFunction.MayTouch (r : Registry) (session : SessionId) (c c' : Contents) :
    PlanningFunction → Prop
  | copy toVersion year _ =>
    c' = c ∨ ∃ version yearId id batch target,
      r.resolve .version toVersion = .ok version ∧ r.resolve .year year = .ok yearId ∧
      c'.sessions.get? batch.session = some target ∧ target.version = version ∧
      target.year = yearId ∧
      (c'.sessions = c.sessions ∨ c.sessions.get? batch.session = none ∧
        c'.sessions = c.sessions.insert batch.session target) ∧
      c.AddsBatch c' id batch
  | repost =>
    c' = c ∨ ∃ id batch, batch.session = session ∧ c.SameOutside c' session ∧
      c.AddsBatch c' id batch ∧ c'.sessions = c.sessions
  | distribute .. => c.SameOutside c' session ∧ c.Restated c'
  | convert _ => c.SameOutside c' session ∧ c.Restated c'
  | resetSlice _ => c.SameOutside c' session ∧ c.Restated c'

section

variable {x : WorkContext} {t : Tally}

theorem mayTouch_repost (hs : b.store.WellFormed) (h : (repost x).run b = .ok t b') :
    b.store.Keeps b'.store.toContents ∧ PlanningFunction.repost.MayTouch x.registry x.sessionId
      b.store.toContents b'.store.toContents := by
  rcases wroteNewBatch_repost hs h with ⟨rfl, -⟩ | ⟨batch, ws, hsession, hwrote, -⟩
  · exact ⟨.refl _, .inl rfl⟩
  · have hcells : ∀ c, (∃ fact ∈ b.store.allFacts, fact.cell = c ∧ c.session = x.sessionId) →
        c.session = batch.session := by
      rintro c ⟨fact, -, -, hc⟩
      exact hc.trans hsession.symm
    obtain ⟨hkeeps, hsame, hadds, hsessions⟩ := hwrote.frame hs hcells
    rw [hsession] at hsame
    exact ⟨hkeeps, .inr ⟨_, batch, hsession, hsame, hadds, hsessions⟩⟩

/-- Copying adds a batch to the session of the target, which is added before if there is none. -/
theorem mayTouch_copy {toVersion year : String} {period : Option String}
    (hs : b.store.WellFormed) (h : (copy x toVersion year period).run b = .ok t b') :
    b.store.Keeps b'.store.toContents ∧
      (PlanningFunction.copy toVersion year period).MayTouch x.registry x.sessionId
        b.store.toContents b'.store.toContents := by
  rcases wroteNewBatch_copy h with ⟨rfl, -⟩ |
    ⟨version, yearId, target, session, s, batch, ws, hversion, hyear, hfound, rfl, hwrote, -⟩
  · exact ⟨.refl _, .inl rfl⟩
  · have hcells : ∀ c, (∃ fact ∈ b.store.allFacts,
        copiedCell batch.session version yearId fact.cell = c) → c.session = batch.session := by
      rintro c ⟨fact, -, rfl⟩
      rfl
    obtain ⟨hstored, rfl, rfl, hsession⟩ := Store.findOrCreateSession_eq hfound
    rcases hsession with rfl | ⟨hid, -, rfl⟩
    · obtain ⟨hkeeps, -, hadds, hsessions⟩ := hwrote.frame hs hcells
      rw [← hsessions] at hstored
      exact ⟨hkeeps, .inr ⟨_, _, _, batch, session, hversion, hyear, hstored, rfl, rfl,
        .inl hsessions, hadds⟩⟩
    · have hadded := hs.withSession batch.session session
      obtain ⟨hkeeps, -, hadds, hsessions⟩ := hwrote.frame hadded hcells
      rw [← hsessions] at hstored
      have hfree : b.store.sessions.get? batch.session = none := by
        rw [hid]
        exact hs.get?_next_session
      -- The new session has no rows and no batches, so the batch is added to those that there were.
      refine ⟨?_, .inr ⟨_, _, _, batch, session, hversion, hyear, hstored, rfl, rfl,
        .inr ⟨hfree, hsessions⟩, ⟨hadds.fresh, hadds.batches, hadds.kept, hadds.added⟩⟩⟩
      rw [hid] at hkeeps
      exact (Store.keeps_withSession hs session).trans hkeeps

/-- **Planning functions.** Whatever a planning function does to a store is what it may touch, and
nothing is removed. -/
theorem PlanningFunction.mayTouch_work (f : PlanningFunction) (hs : b.store.WellFormed)
    (h : (f.work x).run b = .ok t b') :
    b.store.Keeps b'.store.toContents ∧
      f.MayTouch x.registry x.sessionId b.store.toContents b'.store.toContents := by
  cases f with
  | repost => exact mayTouch_repost hs h
  | copy toVersion year period => exact mayTouch_copy hs h
  | _ =>
    obtain ⟨ws, hwrote, -⟩ := PlanningFunction.wroteInPlace_work rfl h
    exact hwrote.frame

end

/-! ## Formulas -/

namespace Engine

variable {e : Engine}

theorem keys_of_entries {entries : List RunEntry}
    (h : entries.map RunEntry.toEntry = ws.map Write.entry) :
    (entries.map fun entry ↦ entry.key) = ws.map Write.key := by
  calc
    (entries.map fun entry ↦ entry.key) = (entries.map RunEntry.toEntry).map Entry.key := by
      rw [List.map_map]
      rfl
    _ = ws.map Write.key := by
      rw [h, List.map_map]
      rfl

theorem writesLatest_runWork {f : PlanFormula} {p : RunPlan} (hs : b.store.WellFormed)
    (h : (e.runWork f p false run).run b = .ok () b') : ∃ ws,
      b'.ledger.run? run = (b.ledger.run? run).map (Write.listAll · ws) ∧
      b.store.Keeps b'.store.toContents ∧
      b.store.SameOutside b'.store.toContents p.frame.sessionId ∧
      b.store.WritesLatest b'.store.toContents p.frame.sessionId (ws.map Write.key) := by
  obtain ⟨batch, stored, s, entries, ws, hensure, hentries, hws, hwrote⟩ := wrote_runWork h
  have hrows : s.RowsWritten b'.store.toContents fun key ↦ ∃ w ∈ ws, w.key = key :=
    hwrote.rowsWritten
  have hkeys : ∀ key, (∃ w ∈ ws, w.key = key) →
      key ∈ ws.map Write.key ∧ key.batch = batch ∧ key.session = p.frame.sessionId := by
    rintro key ⟨w, hw, rfl⟩
    have hentry : w.entry ∈ entries := by
      rw [← hws]
      exact List.mem_map_of_mem hw
    obtain ⟨hbatch, hsession, -⟩ := entryOf_mem hentries w.entry hentry
    exact ⟨List.mem_map_of_mem hw, hbatch, hsession⟩
  have hinside := hrows.sameOutside fun key hkey ↦ (hkeys key hkey).2.2
  have hlatest := Store.writesLatest_of_rowsWritten hrows hs hensure fun key hkey ↦
    ⟨(hkeys key hkey).1, (hkeys key hkey).2.1⟩
  refine ⟨ws, hwrote.listed, ?_, ?_, hlatest⟩
  · exact (Store.keeps_ensureBatch hs hensure).trans hrows.keeps
  · exact (Store.sameOutside_ensureBatch hs hensure).trans hinside

/-! ## Runs -/

theorem frame_runFormula (h : e.store.WellFormed) {f : PlanFormula} {request : RunRequest}
    {report : RunReport} (hrun : (e.runFormula f request).1 = .ok report) :
    e.store.SameOutside (e.runFormula f request).2.store.toContents request.session ∧
      e.store.WritesLatest (e.runFormula f request).2.store.toContents request.session
        (report.entries.map fun entry ↦ entry.key) := by
  cases hplan : e.plan f request with
  | error err =>
    simp only [runFormula, hplan] at hrun
    cases hrun
  | ok p =>
    rcases runFormula_cases hplan with
      ⟨err, e', heq, -⟩ | ⟨-, worked, run, hwork, -, hlisted, heq⟩
    · rw [heq] at hrun
      cases hrun
    · rw [heq] at hrun ⊢
      cases hrun
      cases hpreview : request.preview with
      | true => exact ⟨.refl _ _, .refl _ _ _⟩
      | false =>
        rw [hpreview] at hwork
        obtain ⟨ws, hlist, -, hsame, hlatest⟩ :=
          writesLatest_runWork (wellFormed_begun h _ _) hwork
        rw [(plan_eq_ok hplan).session_id] at hsame hlatest
        -- The entries of the report are those of the writes.
        rw [run?_begun, hlisted, Option.map_some, Option.some_inj] at hlist
        have hkeys : (run.entries.map fun entry ↦ entry.key) = ws.map Write.key := by
          refine keys_of_entries ?_
          rw [hlist, Write.entries_listAll]
          rfl
        rw [hkeys]
        exact ⟨hsame, hlatest⟩

theorem frame_runFunction (h : e.store.WellFormed) {f : PlanningFunction} {id : SessionId}
    {outcome : FunctionOutcome} (hrun : (e.runFunction f id).1 = .ok outcome) :
    f.MayTouch e.registry id e.store.toContents (e.runFunction f id).2.store.toContents := by
  cases hsession : e.sessionOfWork id with
  | error err =>
    simp only [runFunction, hsession] at hrun
    cases hrun
  | ok session =>
    rcases runFunction_cases (f := f) hsession with
      ⟨err, e', heq, -⟩ | ⟨-, tally, worked, hwork, -, heq⟩
    · rw [heq] at hrun
      cases hrun
    · rw [heq]
      exact (f.mayTouch_work (wellFormed_begun h _ _) hwork).2

/-- Nothing that is run removes anything. -/
theorem keeps_perform (h : e.store.WellFormed) (call : RunCall) :
    e.store.Keeps (e.perform call).2.store.toContents := by
  cases call with
  | formula f request =>
    rw [perform]
    rcases e.store_runFormula_cases f request with hsame | ⟨p, worked, -, hwork, hstore⟩
    · rw [hsame]
      exact .refl _
    · rw [hstore]
      obtain ⟨ws, -, hkeeps, -⟩ := writesLatest_runWork (wellFormed_begun h _ _) hwork
      exact hkeeps
  | function f id =>
    rw [perform]
    rcases e.store_runFunction_cases f id with hsame | ⟨session, tally, worked, hwork, hstore⟩
    · rw [hsame]
      exact .refl _
    · rw [hstore]
      exact (f.mayTouch_work (wellFormed_begun h _ _) hwork).1

/-- Nothing that is asked of an engine removes anything, unless its store is called directly. -/
theorem keeps_after (h : e.store.WellFormed) {call : EngineCall}
    (hcall : ∀ direct, call ≠ .onStore direct) :
    e.store.Keeps (e.after call).store.toContents := by
  cases call with
  | onStore direct => exact absurd rfl (hcall direct)
  | createSession name version year orgUnit =>
    rw [after]
    split
    · obtain ⟨-, -, -, rfl⟩ := createSession_eq_ok ‹_›
      exact Store.keeps_withSession h _
    · exact .refl _
  | loadFact c values =>
    rw [after]
    split
    · obtain ⟨found, s, hensure, -, rfl⟩ := loadFact_eq_ok ‹_›
      exact (Store.keeps_ensureBatch h hensure).trans
        (s.rowsWritten_written (c.inBatch found.1) values fun _ ↦ values).keeps
    · exact .refl _
  | setUp registry catalog options => exact .refl _
  | run call => exact keeps_perform h call

/-- **Runs touch only what they may touch.** In a reachable engine a formula that succeeds on a
session leaves all rows and batches of other sessions exactly as they were, and it changes or adds
rows of the newest batch of the session only, under the keys of its entries. A planning function
that succeeds touches what such a function may touch: copying adds rows to one new batch of the
session of the target, reposting to one of its session, and the others restate current facts of
their session. Nothing that is asked of the engine itself, be it that it fails or succeeds, removes
a fact, a batch or a session. -/
theorem run_touches_only (h : e.Reachable) :
    (∀ f request report, (e.runFormula f request).1 = .ok report →
      e.store.SameOutside (e.runFormula f request).2.store.toContents request.session ∧
        e.store.WritesLatest (e.runFormula f request).2.store.toContents request.session
          (report.entries.map fun entry ↦ entry.key)) ∧
    (∀ f session outcome, (e.runFunction f session).1 = .ok outcome →
      f.MayTouch e.registry session e.store.toContents
        (e.runFunction f session).2.store.toContents) ∧
    ∀ call, (∀ direct, call ≠ .onStore direct) →
      e.store.Keeps (e.after call).store.toContents :=
  ⟨fun _ _ _ hrun ↦ frame_runFormula h.wellFormed hrun,
    fun _ _ _ hrun ↦ frame_runFunction h.wellFormed hrun,
    fun _ hcall ↦ keeps_after h.wellFormed hcall⟩

/-- A formula that gives a cell the value `20`. -/
private def giveTwenty : PlanFormula := { name := "twenty", text := "[REV] = 20" }

/-- The report of giving the first fact of the small plan the value `20`. -/
private def twentyGiven : RunReport where
  id := 1
  source := .formula "twenty"
  preview := false
  entries := [{ key := (smallCell 1).inBatch 1, cellName := "REV", oldValue := ten,
                newValue := twenty.padTo 4, seq := 0 }]

/-- The outcome of reposting the first session of the small plan. -/
private def reposted : FunctionOutcome where
  run := 1
  affected := 2
  errors := []
  entries :=
    [{ key := (smallCell 1).inBatch 2, cellName := "REV[Version=P0,Year=2024,Period=01,OrgUnit=O1]",
       oldValue := ten, newValue := ten, seq := 0 },
     { key := (smallCell 2).inBatch 2, cellName := "REV[Version=P0,Year=2024,Period=01,OrgUnit=2]",
       oldValue := twenty, newValue := twenty, seq := 1 }]

/-- In the small plan a formula writes one row in place, reposting adds the second batch, and a fact
that is loaded removes none. -/
theorem run_touches_only_smallPlan :
    (smallPlan.runFormula giveTwenty { session := 1, period := some "01" }).1 = .ok twentyGiven ∧
      smallPlan.store.WritesLatest
        (smallPlan.runFormula giveTwenty { session := 1, period := some "01" }).2.store.toContents 1
        [(smallCell 1).inBatch 1] ∧
      (smallPlan.runFunction .repost 1).1 = .ok reposted ∧
      PlanningFunction.repost.MayTouch smallPlan.registry 1 smallPlan.store.toContents
        (smallPlan.runFunction .repost 1).2.store.toContents ∧
      smallPlan.store.Keeps
        (smallPlan.after (.loadFact (smallCell 2) { value := ten })).store.toContents := by
  have hformula :
      (smallPlan.runFormula giveTwenty { session := 1, period := some "01" }).1 =
        .ok twentyGiven := by
    decide +kernel
  have hfunction : (smallPlan.runFunction .repost 1).1 = .ok reposted := by
    decide +kernel
  obtain ⟨hformulas, hfunctions, hkeeps⟩ := run_touches_only reachable_smallPlan
  exact ⟨hformula, (hformulas _ _ _ hformula).2, hfunction, hfunctions _ _ _ hfunction,
    hkeeps _ nofun⟩

end Engine

end PlanLedger
