import PlanLedger.Proofs.Planning.Confined
import PlanLedger.Proofs.Planning.Unit
import PlanLedger.Proofs.Store.Reachable

/-!
# Runs of an engine

A run of a formula or a planning function is refused before it takes a number, or it takes the next
number and then fails or succeeds. What is known of each of the three is collected here once; the
statements on failures, on previews and on the ledger start from it.
-/

namespace PlanLedger

namespace Engine

variable {e : Engine}

abbrev nextRun (e : Engine) : RunId := e.ledger.lastRun + 1

theorem run?_begun (source : RunSource) (preview : Bool) :
    (e.begun source preview).ledger.run? e.nextRun = some { source, preview } := by
  rw [begun, Books.opened, Ledger.run?_beginRun, if_pos rfl]

theorem exists_run?_of_movedTo {source : RunSource} {preview : Bool} {worked : Books}
    (h : (e.begun source preview).MovedTo e.nextRun worked) :
    ∃ run, worked.ledger.run? e.nextRun = some run := by
  refine Option.isSome_iff_exists.mp (h.listed.trans ?_)
  rw [run?_begun]
  rfl

theorem wellFormed_begun (h : e.store.WellFormed) (source : RunSource) (preview : Bool) :
    (e.begun source preview).store.WellFormed := by
  refine ⟨h.contents, fun c hc ↦ ?_⟩
  rw [← Option.some_inj.mp hc]
  exact h.contents

private theorem wellFormed_of_movedTo {source : RunSource} {preview : Bool} {worked : Books}
    (hs : e.store.WellFormed) (h : (e.begun source preview).MovedTo e.nextRun worked) :
    Store.WellFormed { worked.store with saved := none } := by
  refine ⟨((wellFormed_begun hs source preview).editedTo h.store).contents, fun c hc ↦ ?_⟩
  cases hc

/-- **Runs of formulas.** A run that is prepared fails and leaves the engine as it was, or its work
succeeds and it is reported as the ledger has it. -/
theorem runFormula_cases {f : PlanFormula} {request : RunRequest} {p : RunPlan}
    (hplan : e.plan f request = .ok p) :
    (∃ err e', e.runFormula f request = (.error err, e') ∧ e.FailsWith err e') ∨
    e.store.inUnit = false ∧ ∃ worked run,
      (e.runWork f p request.preview e.nextRun).run (e.begun (.formula f.name) request.preview) =
        .ok () worked ∧
      (e.begun (.formula f.name) request.preview).MovedTo e.nextRun worked ∧
      worked.ledger.run? e.nextRun = some run ∧
      e.runFormula f request = (.ok { run with id := e.nextRun },
        { e with
          store := if request.preview = true then e.store else { worked.store with saved := none }
          ledger := worked.ledger }) := by
  rcases underRun_cases (.formula f.name) request.preview
    (e.under_runWork f p request.preview) with
    ⟨err, e', hunder, hfails⟩ | ⟨hfree, u, worked, hrun, hmoved, hunder⟩
  · exact .inl ⟨err, e', by simp only [runFormula, hplan, hunder], hfails⟩
  · obtain ⟨run, hlisted⟩ := exists_run?_of_movedTo hmoved
    refine .inr ⟨hfree, worked, run, hrun, hmoved, hlisted, ?_⟩
    simp only [runFormula, hplan, hunder, hlisted]

theorem runFormula_of_active {f : PlanFormula} {request : RunRequest} {p : RunPlan}
    (hplan : e.plan f request = .ok p) (h : e.store.inUnit = true) :
    (e.runFormula f request).1 = .error (.store .unitActive) := by
  obtain ⟨e', hunder, -⟩ := underRun_of_active (.formula f.name) request.preview
    (e.runWork f p request.preview) h
  simp only [runFormula, hplan, hunder]

theorem runFormula_of_error {f : PlanFormula} {request : RunRequest} {p : RunPlan}
    (hplan : e.plan f request = .ok p) (hfree : e.store.inUnit = false) {err : PlanningError}
    {worked : Books}
    (h : (e.runWork f p request.preview e.nextRun).run
      (e.begun (.formula f.name) request.preview) = .error err worked) :
    (e.runFormula f request).1 = .error err := by
  obtain ⟨e', hunder, -⟩ := underRun_of_error (.formula f.name) request.preview
    (e.under_runWork f p request.preview) hfree h
  simp only [runFormula, hplan, hunder]

theorem runFormula_of_ok {f : PlanFormula} {request : RunRequest} {p : RunPlan}
    (hplan : e.plan f request = .ok p) (hfree : e.store.inUnit = false) {worked : Books}
    (h : (e.runWork f p request.preview e.nextRun).run
      (e.begun (.formula f.name) request.preview) = .ok () worked) {run : Run}
    (hlisted : worked.ledger.run? e.nextRun = some run) :
    (e.runFormula f request).1 = .ok { run with id := e.nextRun } := by
  have hunder := underRun_of_ok (.formula f.name) request.preview
    (e.under_runWork f p request.preview) hfree h
  simp only [runFormula, hplan, hunder, hlisted]

/-- **Runs of planning functions.** A run on a session that there is fails and leaves the engine as
it was, or its work succeeds and it is reported with its tally. -/
theorem runFunction_cases {f : PlanningFunction} {id : SessionId} {session : Session}
    (hsession : e.sessionOfWork id = .ok session) :
    (∃ err e', e.runFunction f id = (.error err, e') ∧ e.FailsWith err e') ∨
    e.store.inUnit = false ∧ ∃ tally worked,
      (f.work (e.workContext id session e.nextRun)).run (e.begun (.function f.kind) false) =
        .ok tally worked ∧
      (e.begun (.function f.kind) false).MovedTo e.nextRun worked ∧
      e.runFunction f id =
        (.ok { tally with run := e.nextRun, entries := worked.ledger.entries e.nextRun },
          { e with store := { worked.store with saved := none }, ledger := worked.ledger }) := by
  rcases underRun_cases (e := e) (.function f.kind) false
    (fun run ↦ f.under_work (e.workContext id session run)) with
    ⟨err, e', hunder, hfails⟩ | ⟨hfree, tally, worked, hrun, hmoved, hunder⟩
  · exact .inl ⟨err, e', by simp only [runFunction, hsession, hunder], hfails⟩
  · refine .inr ⟨hfree, tally, worked, hrun, hmoved, ?_⟩
    simp only [runFunction, hsession, hunder, if_neg Bool.false_ne_true]

theorem runFunction_of_ok {f : PlanningFunction} {id : SessionId} {session : Session}
    (hsession : e.sessionOfWork id = .ok session) (hfree : e.store.inUnit = false) {tally : Tally}
    {worked : Books} (h : (f.work (e.workContext id session e.nextRun)).run
      (e.begun (.function f.kind) false) = .ok tally worked) :
    (e.runFunction f id).1 =
      .ok { tally with run := e.nextRun, entries := worked.ledger.entries e.nextRun } := by
  have hunder := underRun_of_ok (.function f.kind) false
    (fun run ↦ f.under_work (e.workContext id session run)) hfree h
  simp only [runFunction, hsession, hunder]

/-- A planning function that succeeds is reported with the tally of its work, and the store is what
its work made of it. -/
theorem exists_work_of_runFunction {f : PlanningFunction} {id : SessionId}
    {outcome : FunctionOutcome} (h : (e.runFunction f id).1 = .ok outcome) :
    e.store.saved = none ∧ ∃ session tally worked, e.sessionOfWork id = .ok session ∧
      (f.work (e.workContext id session e.nextRun)).run (e.begun (.function f.kind) false) =
        .ok tally worked ∧
      outcome = { tally with run := e.nextRun, entries := worked.ledger.entries e.nextRun } ∧
      (e.runFunction f id).2.store = { worked.store with saved := none } := by
  cases hsession : e.sessionOfWork id with
  | error err =>
    simp only [runFunction, hsession] at h
    cases h
  | ok session =>
    rcases runFunction_cases (f := f) hsession with
      ⟨err, e', heq, -⟩ | ⟨hfree, tally, worked, hwork, -, heq⟩
    · rw [heq] at h
      cases h
    · rw [heq] at h ⊢
      refine ⟨?_, session, tally, worked, rfl, hwork, (Except.ok.inj h).symm, rfl⟩
      rwa [Store.inUnit, Option.isSome_eq_false_iff, Option.isNone_iff_eq_none] at hfree

theorem length_entries_le_of_runFunction {f : PlanningFunction} {id : SessionId}
    {outcome : FunctionOutcome} (h : (e.runFunction f id).1 = .ok outcome) :
    outcome.entries.length ≤ maxEntries := by
  cases hsession : e.sessionOfWork id with
  | error err =>
    simp only [runFunction, hsession] at h
    cases h
  | ok session =>
    rcases runFunction_cases (f := f) hsession with
      ⟨err, e', heq, -⟩ | ⟨-, tally, worked, -, hmoved, heq⟩
    · rw [heq] at h
      cases h
    · rw [heq] at h
      obtain rfl := Except.ok.inj h
      have hbegun : ((e.begun (.function f.kind) false).ledger.entries e.nextRun).length = 0 := by
        rw [Ledger.entries, run?_begun]
        rfl
      rw [← Nat.zero_max maxEntries, ← hbegun]
      exact hmoved.room

/-- A formula leaves the store as it was, or it was run for real and the store is what its work made
of it. -/
theorem store_runFormula_cases (e : Engine) (f : PlanFormula) (request : RunRequest) :
    (e.runFormula f request).2.store = e.store ∨ ∃ p worked, e.plan f request = .ok p ∧
      (e.runWork f p false e.nextRun).run (e.begun (.formula f.name) false) = .ok () worked ∧
      (e.runFormula f request).2.store = { worked.store with saved := none } := by
  cases hplan : e.plan f request with
  | error err => exact .inl (by simp only [runFormula, hplan])
  | ok p =>
    rcases runFormula_cases hplan with
      ⟨err, e', heq, hfails⟩ | ⟨-, worked, run, hwork, -, -, heq⟩
    · exact .inl (by rw [heq, hfails.same.store])
    · cases hpreview : request.preview with
      | true => exact .inl (by rw [heq, hpreview, if_pos rfl])
      | false =>
        rw [hpreview] at hwork
        exact .inr ⟨p, worked, rfl, hwork, by rw [heq, hpreview, if_neg Bool.false_ne_true]⟩

/-- A planning function leaves the store as it was, or the store is what its work made of it. -/
theorem store_runFunction_cases (e : Engine) (f : PlanningFunction) (id : SessionId) :
    (e.runFunction f id).2.store = e.store ∨ ∃ session tally worked,
      (f.work (e.workContext id session e.nextRun)).run (e.begun (.function f.kind) false) =
        .ok tally worked ∧
      (e.runFunction f id).2.store = { worked.store with saved := none } := by
  cases hsession : e.sessionOfWork id with
  | error err => exact .inl (by simp only [runFunction, hsession])
  | ok session =>
    rcases runFunction_cases (f := f) hsession with
      ⟨err, e', heq, hfails⟩ | ⟨-, tally, worked, hwork, -, heq⟩
    · exact .inl (by rw [heq, hfails.same.store])
    · exact .inr ⟨session, tally, worked, hwork, by rw [heq]⟩

end Engine

/-! ## Calls that run something -/

/-- What can be run on an engine. -/
inductive RunCall where
  | formula (f : PlanFormula) (request : RunRequest)
  | function (f : PlanningFunction) (session : SessionId)

namespace Engine

/-- Runs what is asked for. Of the report only the number of the run is kept. -/
def perform (e : Engine) : RunCall → Except PlanningError RunId × Engine
  | .formula f request => ((e.runFormula f request).1.map (·.id), (e.runFormula f request).2)
  | .function f session => ((e.runFunction f session).1.map (·.run), (e.runFunction f session).2)

/-- What is checked before a run takes its number. -/
def precheck (e : Engine) : RunCall → Except PlanningError Unit
  | .formula f request => (e.plan f request).map fun _ ↦ ()
  | .function _ session => (e.sessionOfWork session).map fun _ ↦ ()

/-- What a call that runs something comes to: it is refused before it takes a number, it fails, or
it is done. -/
inductive Performed (e : Engine) (call : RunCall) : Except PlanningError RunId → Engine → Prop
  | refused (err : PlanningError) (h : e.precheck call = .error err) :
      Performed e call (.error err) e
  | failed (err : PlanningError) (e' : Engine) (passed : e.precheck call = .ok ())
      (fails : e.FailsWith err e') : Performed e call (.error err) e'
  | done (e' : Engine) (passed : e.precheck call = .ok ()) (free : e.store.inUnit = false)
      (last : e'.ledger.lastRun = e.nextRun) (ended : e'.store.inUnit = false)
      (wellFormed : e.store.WellFormed → e'.store.WellFormed) :
      Performed e call (.ok e.nextRun) e'

private theorem performed_formula (e : Engine) (f : PlanFormula) (request : RunRequest) :
    e.Performed (.formula f request) (e.perform (.formula f request)).1
      (e.perform (.formula f request)).2 := by
  cases hplan : e.plan f request with
  | error err =>
    have hrun : e.runFormula f request = (.error err, e) := by simp only [runFormula, hplan]
    rw [perform, hrun]
    exact .refused err (by rw [precheck, hplan]; rfl)
  | ok p =>
    have hpassed : e.precheck (.formula f request) = .ok () := by
      rw [precheck, hplan]
      rfl
    rcases runFormula_cases hplan with
      ⟨err, e', hrun, hfails⟩ | ⟨hfree, worked, run, -, hmoved, -, hrun⟩
    · rw [perform, hrun]
      exact .failed err e' hpassed hfails
    · rw [perform, hrun]
      -- A preview keeps the store as it was; what a real run leaves has no unit of work.
      refine .done _ hpassed hfree hmoved.lastRun ?_ fun hs ↦ ?_
      · cases request.preview with
        | true => exact hfree
        | false => rfl
      · cases request.preview with
        | true => exact hs
        | false => exact wellFormed_of_movedTo hs hmoved

private theorem performed_function (e : Engine) (f : PlanningFunction) (id : SessionId) :
    e.Performed (.function f id) (e.perform (.function f id)).1 (e.perform (.function f id)).2 := by
  cases hsession : e.sessionOfWork id with
  | error err =>
    have hrun : e.runFunction f id = (.error err, e) := by simp only [runFunction, hsession]
    rw [perform, hrun]
    exact .refused err (by rw [precheck, hsession]; rfl)
  | ok session =>
    have hpassed : e.precheck (.function f id) = .ok () := by
      rw [precheck, hsession]
      rfl
    rcases runFunction_cases (f := f) hsession with
      ⟨err, e', hrun, hfails⟩ | ⟨hfree, tally, worked, -, hmoved, hrun⟩
    · rw [perform, hrun]
      exact .failed err e' hpassed hfails
    · rw [perform, hrun]
      exact .done _ hpassed hfree hmoved.lastRun rfl fun hs ↦ wellFormed_of_movedTo hs hmoved

theorem performed (e : Engine) (call : RunCall) :
    e.Performed call (e.perform call).1 (e.perform call).2 := by
  cases call with
  | formula f request => exact e.performed_formula f request
  | function f session => exact e.performed_function f session

end Engine

end PlanLedger
