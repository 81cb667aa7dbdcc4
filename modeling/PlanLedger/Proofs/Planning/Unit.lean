import PlanLedger.Planning.Run
import PlanLedger.Proofs.Planning.Working
import PlanLedger.Proofs.Store.UnitOfWork

/-!
# Units of work and runs

Work under a run that is done in a unit of work either stays as a whole or leaves the store as it
was. Listing the run first and striking it where the work fails does the same for the ledger, apart
from the number of the run, which is lost. Ending a unit never fails, since work under a run keeps
the contents that the unit has saved.
-/

namespace PlanLedger

variable {α : Type}

/-! ## The ledger -/

namespace Ledger

theorem run?_beginRun (l : Ledger) (source : RunSource) (preview : Bool) (id : RunId) :
    (l.beginRun source preview).2.run? id =
      if id = l.lastRun + 1 then some { source, preview } else l.run? id :=
  SortedMap.get?_insert _ _ _ _

theorem run?_next (l : Ledger) : l.run? (l.lastRun + 1) = none := by
  refine Option.eq_none_iff_forall_ne_some.mpr fun run hrun ↦ ?_
  have hle := l.bounded _ (SortedMap.mem_keys_iff.mpr ⟨run, hrun⟩)
  exact absurd hle (Nat.not_succ_le_self _)

end Ledger

namespace Engine

theorem run?_strike (l : Ledger) (run id : RunId) :
    (strike l run).run? id = if id = run then none else l.run? id := by
  rw [strike, Ledger.discard]
  by_cases h : l.runs.contains run = true
  · rw [if_pos h]
    exact SortedMap.get?_erase _ _ _
  · rw [if_neg h]
    by_cases hid : id = run
    · rw [if_pos hid, hid]
      rw [SortedMap.contains, Option.not_isSome_iff_eq_none] at h
      exact h
    · rw [if_neg hid]

theorem lastRun_strike (l : Ledger) (run : RunId) : (strike l run).lastRun = l.lastRun := by
  rw [strike, Ledger.discard]
  split
  · split at *
    · cases ‹_ = _›
      rfl
    · cases ‹_ = _›
  · rfl

end Engine

/-! ## Units of work -/

/-- The books when a unit of work has just begun. -/
def Books.opened (b : Books) : Books :=
  { b with store := { b.store with saved := some b.store.toContents } }

namespace Working

variable {run : RunId} {work : Working α} {b : Books}

theorem run_inUnit_of_active (keep : Bool) (work : Working α) (h : b.store.inUnit = true) :
    (inUnit keep work).run b = .error (.store .unitActive) b := by
  simp only [inUnit, Store.beginUnit_of_inUnit h, EStateM.run]

private theorem beginUnit_eq (h : b.store.inUnit = false) :
    b.store.beginUnit = .ok b.opened.store := Store.beginUnit_of_free h

private theorem saved_of_under (hwork : Under run work) :
    (work.after b.opened).store.saved = some b.store.toContents :=
  (hwork b.opened).store.saved_eq

theorem run_inUnit_of_error (keep : Bool) (hwork : Under run work) (hfree : b.store.inUnit = false)
    {err : PlanningError} {worked : Books} (h : work.run b.opened = .error err worked) :
    (inUnit keep work).run b = .error err { worked with store := b.store } := by
  have hsaved : worked.store.saved = some b.store.toContents := by
    -- Edits do not touch what the unit has saved.
    rw [← after_of_error h]
    exact saved_of_under hwork
  have hwork : work.run { b with store := b.opened.store } = .error err worked := h
  simp only [EStateM.run] at hwork ⊢
  simp only [inUnit, beginUnit_eq hfree, EStateM.run, hwork,
    Store.dropUnit_of_rollbackUnit (Store.rollbackUnit_of_saved hfree hsaved)]

/-- Where the work succeeds its changes of the store stay, or the store is what it was before. -/
theorem run_inUnit_of_ok (keep : Bool) (hwork : Under run work) (hfree : b.store.inUnit = false)
    {a : α} {worked : Books} (h : work.run b.opened = .ok a worked) :
    (inUnit keep work).run b = .ok a
      { worked with
        store := if keep = true then { worked.store with saved := none } else b.store } := by
  have hsaved : worked.store.saved = some b.store.toContents := by
    rw [← after_of_ok h]
    exact saved_of_under hwork
  have hwork : work.run { b with store := b.opened.store } = .ok a worked := h
  simp only [EStateM.run] at hwork ⊢
  simp only [inUnit, beginUnit_eq hfree, EStateM.run, hwork]
  cases keep with
  | true => simp only [if_pos, Store.commitUnit, hsaved]
  | false =>
    rw [if_neg Bool.false_ne_true, if_neg Bool.false_ne_true,
      Store.rollbackUnit_of_saved hfree hsaved]

end Working

/-! ## Runs -/

namespace Engine

/-- An engine that differs from another one in the last number of its ledger at most. -/
structure SameBut (e e' : Engine) : Prop where
  store : e'.store = e.store
  runs : e'.ledger.runs = e.ledger.runs
  registry : e'.registry = e.registry
  catalog : e'.catalog = e.catalog
  options : e'.options = e.options

/-- What an engine comes to when a run fails that has taken the next number. -/
structure FailsWith (e : Engine) (err : PlanningError) (e' : Engine) : Prop where
  same : e.SameBut e'
  last : e'.ledger.lastRun = e.ledger.lastRun + 1
  /-- In an open unit of work a run fails for that reason. -/
  active : e.store.inUnit = true → err = .store .unitActive

/-- The books in which the work of a run begins. -/
def begun (e : Engine) (source : RunSource) (preview : Bool) : Books :=
  Books.opened ⟨e.store, (e.ledger.beginRun source preview).2⟩

variable {e : Engine} (source : RunSource) (preview : Bool) {work : RunId → Working α}

/-- Striking a run undoes all that was done to the ledger since the run began, if that concerned no
other run. -/
private theorem runs_strike {l l' : Ledger}
    (hothers : ∀ id, id ≠ l.lastRun + 1 → l'.run? id = (l.beginRun source preview).2.run? id) :
    (strike l' (l.lastRun + 1)).runs = l.runs := by
  refine SortedMap.ext_get? fun id ↦ ?_
  show (strike l' (l.lastRun + 1)).run? id = l.run? id
  rw [run?_strike]
  by_cases hid : id = l.lastRun + 1
  · -- The number was free before the run began, and it is free again.
    rw [if_pos hid, hid, l.run?_next]
  · rw [if_neg hid, hothers id hid, Ledger.run?_beginRun, if_neg hid]

theorem underRun_of_active (work : RunId → Working α) (h : e.store.inUnit = true) : ∃ e',
    e.underRun source preview work = (.error (.store .unitActive), e') ∧
      e.FailsWith (.store .unitActive) e' := by
  have hrun := Working.run_inUnit_of_active (!preview) (work (e.ledger.lastRun + 1))
    (b := ⟨e.store, (e.ledger.beginRun source preview).2⟩) h
  let begunLedger := (e.ledger.beginRun source preview).2
  have hruns : (strike begunLedger (e.ledger.lastRun + 1)).runs = e.ledger.runs :=
    runs_strike source preview fun _ _ ↦ rfl
  refine ⟨{ e with ledger := strike begunLedger (e.ledger.lastRun + 1) }, ?_,
    ⟨rfl, hruns, rfl, rfl, rfl⟩, lastRun_strike _ _, fun _ ↦ rfl⟩
  rw [underRun]
  simp only [Ledger.beginRun] at hrun ⊢
  rw [hrun]
  rfl

theorem underRun_of_error (hwork : ∀ run, Working.Under run (work run))
    (hfree : e.store.inUnit = false) {err : PlanningError} {worked : Books}
    (h : (work (e.ledger.lastRun + 1)).run (e.begun source preview) = .error err worked) : ∃ e',
    e.underRun source preview work = (.error err, e') ∧ e.FailsWith err e' := by
  have hmoved := hwork (e.ledger.lastRun + 1) (e.begun source preview)
  rw [Working.after_of_error h] at hmoved
  have hrun := Working.run_inUnit_of_error (!preview) (hwork (e.ledger.lastRun + 1))
    (b := ⟨e.store, (e.ledger.beginRun source preview).2⟩) hfree h
  have hruns := runs_strike source preview hmoved.others
  have hlast := (lastRun_strike worked.ledger (e.ledger.lastRun + 1)).trans hmoved.lastRun
  refine ⟨{ e with ledger := strike worked.ledger (e.ledger.lastRun + 1) }, ?_,
    ⟨rfl, hruns, rfl, rfl, rfl⟩, hlast, fun hactive ↦ ?_⟩
  · rw [underRun]
    simp only [Ledger.beginRun] at hrun ⊢
    rw [hrun]
  · rw [hfree] at hactive
    cases hactive

theorem underRun_of_ok (hwork : ∀ run, Working.Under run (work run))
    (hfree : e.store.inUnit = false) {a : α} {worked : Books}
    (h : (work (e.ledger.lastRun + 1)).run (e.begun source preview) = .ok a worked) :
    e.underRun source preview work =
      (.ok (e.ledger.lastRun + 1, a),
        { e with
          store := if preview = true then e.store else { worked.store with saved := none }
          ledger := worked.ledger }) := by
  have hrun := Working.run_inUnit_of_ok (!preview) (hwork (e.ledger.lastRun + 1))
    (b := ⟨e.store, (e.ledger.beginRun source preview).2⟩) hfree h
  rw [underRun]
  simp only [Ledger.beginRun] at hrun ⊢
  rw [hrun]
  cases preview <;> rfl

/-- **Work under a new run.** It fails and leaves the engine as it was, or it succeeds, its changes
of the store stay unless it is a preview, and the ledger lists the run. -/
theorem underRun_cases (hwork : ∀ run, Working.Under run (work run)) :
    (∃ err e', e.underRun source preview work = (.error err, e') ∧ e.FailsWith err e') ∨
    e.store.inUnit = false ∧ ∃ a worked,
      (work (e.ledger.lastRun + 1)).run (e.begun source preview) = .ok a worked ∧
      (e.begun source preview).MovedTo (e.ledger.lastRun + 1) worked ∧
      e.underRun source preview work =
        (.ok (e.ledger.lastRun + 1, a),
          { e with
            store := if preview = true then e.store else { worked.store with saved := none }
            ledger := worked.ledger }) := by
  by_cases hactive : e.store.inUnit = true
  · obtain ⟨e', h⟩ := underRun_of_active source preview work hactive
    exact .inl ⟨_, e', h⟩
  · have hfree : e.store.inUnit = false := Bool.eq_false_iff.mpr hactive
    cases hrun : (work (e.ledger.lastRun + 1)).run (e.begun source preview) with
    | error err worked =>
      obtain ⟨e', h⟩ := underRun_of_error source preview hwork hfree hrun
      exact .inl ⟨err, e', h⟩
    | ok a worked =>
      refine .inr ⟨hfree, a, worked, rfl, ?_, underRun_of_ok source preview hwork hfree hrun⟩
      have hmoved := hwork (e.ledger.lastRun + 1) (e.begun source preview)
      rwa [Working.after_of_ok hrun] at hmoved

end Engine

end PlanLedger
