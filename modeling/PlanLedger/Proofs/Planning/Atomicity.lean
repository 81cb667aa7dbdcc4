import PlanLedger.Proofs.Planning.Reachable

/-!
# Failed runs leave no trace

A run that fails, wherever it fails, leaves the store exactly as it was, with its saved contents and
its last numbers, and the ledger with exactly the runs it had. A unit of work is open after a run
exactly if one was open before. What a failed run does use up is its number: every run that passes
its checks takes the next number, so none is given out twice.
-/

namespace PlanLedger.Engine

/-! ## The numbers of runs -/

/-- The number that a call gives out, whether the run fails or succeeds. -/
def number? (e : Engine) : EngineCall → Option RunId
  | .run call =>
    match e.precheck call with
    | .ok _ => some e.nextRun
    | .error _ => none
  | _ => none

/-- The numbers that calls give out one after the other. -/
def numbers (e : Engine) : List EngineCall → List RunId
  | [] => []
  | c :: rest => (e.number? c).toList ++ (e.after c).numbers rest

theorem lastRun_after (e : Engine) (c : EngineCall) :
    (e.after c).ledger.lastRun = (e.number? c).getD e.ledger.lastRun := by
  cases c with
  | onStore call => rfl
  | createSession name version year orgUnit =>
    rw [after]
    split
    · rw [(edit_of_createSession ‹_›).2]
      rfl
    · rfl
  | loadFact c values =>
    rw [after]
    split
    · rw [(editedTo_of_loadFact ‹_›).2]
      rfl
    · rfl
  | setUp registry catalog options => rfl
  | run call =>
    rw [after, number?]
    have hcall := e.performed call
    generalize (e.perform call).1 = result at hcall
    generalize (e.perform call).2 = e' at hcall ⊢
    cases hcall with
    | refused err h =>
      rw [h]
      rfl
    | failed err _ passed fails =>
      rw [passed]
      exact fails.last
    | done _ passed _ last _ _ =>
      rw [passed]
      exact last

theorem number?_eq_some {e : Engine} {c : EngineCall} {id : RunId} (h : e.number? c = some id) :
    id = e.nextRun := by
  cases c with
  | run call =>
    rw [number?] at h
    split at h
    · exact (Option.some_inj.mp h).symm
    · cases h
  | _ => cases h

/-- Numbers increase from call to call, so each is given out once. -/
theorem numbers_increasing (e : Engine) (calls : List EngineCall) :
    (e.numbers calls).Pairwise (· < ·) ∧ ∀ id ∈ e.numbers calls, e.ledger.lastRun < id := by
  -- The bound is carried along: the numbers of later calls are greater than the last one given.
  induction calls generalizing e with
  | nil => exact ⟨.nil, fun id hid ↦ absurd hid List.not_mem_nil⟩
  | cons c rest ih =>
    obtain ⟨hincreasing, hbound⟩ := ih (e.after c)
    rw [lastRun_after] at hbound
    rw [numbers]
    cases hnumber : e.number? c with
    | none =>
      rw [hnumber] at hbound
      exact ⟨hincreasing, hbound⟩
    | some given =>
      have hgiven : e.ledger.lastRun < given := by
        rw [number?_eq_some hnumber]
        exact Nat.lt_succ_self _
      rw [hnumber] at hbound
      refine ⟨List.pairwise_cons.mpr ⟨hbound, hincreasing⟩, fun id hid ↦ ?_⟩
      rcases List.mem_cons.mp hid with rfl | hid
      · exact hgiven
      · exact Nat.lt_trans hgiven (hbound id hid)

/-! ## Failed runs -/

/-- **A failed run leaves no trace.** Whatever is run, if it fails the engine is the same but for
the last number of its ledger. A run in an open unit of work always fails, with the error of the
checks before it or because the unit is open. A unit of work is open after a run exactly if one was
open before. The number of a successful run is the one it was given, and no number is given out
twice. -/
theorem failed_run_traceless (e : Engine) (call : RunCall) :
    (∀ err, (e.perform call).1 = .error err → e.SameBut (e.perform call).2) ∧
      (e.store.inUnit = true →
        (e.perform call).1 = (e.precheck call).bind fun _ ↦ .error (.store .unitActive)) ∧
      (e.perform call).2.store.inUnit = e.store.inUnit ∧
      (∀ id, (e.perform call).1 = .ok id → e.number? (.run call) = some id) ∧
      ∀ calls, (e.numbers calls).Pairwise (· < ·) ∧
        ∀ id ∈ e.numbers calls, e.ledger.lastRun < id := by
  have hcall := e.performed call
  rw [number?]
  generalize (e.perform call).1 = result at hcall ⊢
  generalize (e.perform call).2 = e' at hcall ⊢
  cases hcall with
  | refused err h =>
    refine ⟨fun _ _ ↦ ⟨rfl, rfl, rfl, rfl, rfl⟩, fun _ ↦ ?_, rfl, fun id hid ↦ ?_,
      e.numbers_increasing⟩
    · rw [h]
      rfl
    · cases hid
  | failed err _ passed fails =>
    refine ⟨fun _ _ ↦ fails.same, fun hunit ↦ ?_, by rw [fails.same.store], fun id hid ↦ ?_,
      e.numbers_increasing⟩
    · rw [passed, fails.active hunit]
      rfl
    · cases hid
  | done _ passed free _ ended _ =>
    refine ⟨fun err herr ↦ ?_, fun hunit ↦ ?_, ended.trans free.symm, fun id hid ↦ ?_,
      e.numbers_increasing⟩
    · cases herr
    · rw [free] at hunit
      cases hunit
    · rw [passed, Except.ok.inj hid]

/-- A formula that divides by zero, on a session that has no batch yet. -/
private def divisionByZero : RunCall :=
  .formula { name := "ratio", text := "[REV] = 1 / 0" } { session := 2, period := some "01" }

/-- The batch that is added for the run goes away with it, and so does the run. -/
theorem failed_run_traceless_division :
    smallPlan.SameBut (smallPlan.perform divisionByZero).2 ∧
      smallPlan.numbers [.run divisionByZero, .run divisionByZero] = [1, 2] := by
  have hfailed : (smallPlan.perform divisionByZero).1 =
      .error (.formula (.evaluation .divisionByZero)) := by
    decide +kernel
  exact ⟨(failed_run_traceless smallPlan divisionByZero).1 _ hfailed, by decide +kernel⟩

end PlanLedger.Engine
