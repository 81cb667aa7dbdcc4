import PlanLedger.Proofs.Planning.Entries
import PlanLedger.Proofs.Planning.Runs

/-!
# Previews

A preview and a real run from the same engine are followed side by side. They read the same store,
so they calculate the same entries or fail alike, and their ledgers differ in the mark of the run
only. What the real run does in addition, writing each entry, is never refused, since the store
accepts the keys of all entries, before and after any of them is written.
-/

namespace PlanLedger.Engine

/-- A run without the mark of a preview. -/
def unmarked (r : Run) : Run := { r with preview := false }

/-- The books of a preview beside those of a real run that writes under some keys. -/
structure Beside (run : RunId) (keys : List FactKey) (shown done : Books) : Prop where
  listed : done.ledger.run? run = (shown.ledger.run? run).map unmarked
  accepted : ∀ key ∈ keys, done.store.checkKey key = .ok ()

/-- A preview and a real run fail alike, or they both succeed and are still side by side. -/
inductive Alike (run : RunId) (keys : List FactKey) :
    EStateM.Result PlanningError Books Unit → EStateM.Result PlanningError Books Unit → Prop
  | error (err : PlanningError) (shown done : Books) :
      Alike run keys (.error err shown) (.error err done)
  | ok (shown done : Books) (h : Beside run keys shown done) :
      Alike run keys (.ok () shown) (.ok () done)

variable {run : RunId} {keys : List FactKey} {shown done : Books}

/-! ## One entry -/

theorem record_alike (h : Beside run keys shown done) (entry : Entry) :
    Alike run keys ((Working.record run entry).run shown)
      ((Working.record run entry).run done) := by
  obtain ⟨hlisted, haccepted⟩ := h
  rw [Ledger.run?, Ledger.run?] at hlisted
  simp only [EStateM.run, Working.record, Ledger.record]
  -- Both ledgers lack the run, or they have it with the same number of entries.
  cases hrun : shown.ledger.runs.get? run with
  | none =>
    rw [hrun] at hlisted
    simp only [hlisted, Option.map_none]
    exact .error _ _ _
  | some r =>
    rw [hrun] at hlisted
    simp only [hlisted, Option.map_some, unmarked]
    by_cases hroom : r.entries.length < maxEntries
    · simp only [if_pos hroom]
      refine .ok _ _ ⟨?_, haccepted⟩
      simp only [Ledger.run?, SortedMap.get?_modify, if_pos, hrun, hlisted]
      rfl
    · simp only [if_neg hroom]
      exact .error _ _ _

/-- Previewing an entry and writing it come to the same. -/
theorem settleEntry_alike (h : Beside run keys shown done) {entry : Entry}
    (hkey : entry.key ∈ keys) :
    Alike run keys ((settleEntry run true entry).run shown)
      ((settleEntry run false entry).run done) := by
  have hrecord := record_alike h entry
  rw [settleEntry, settleEntry, EStateM.run_bind, EStateM.run_bind]
  generalize (Working.record run entry).run shown = first at hrecord ⊢
  generalize (Working.record run entry).run done = second at hrecord ⊢
  cases hrecord with
  | error err shown' done' => exact .error _ _ _
  | ok shown' done' h' =>
    have hwrite := run_writeEntry done' (h'.accepted entry.key hkey)
    simp only [Bool.false_eq_true, if_true, if_false, hwrite]
    -- A write changes no batch, so every key that was accepted still is.
    exact .ok _ _ ⟨h'.listed, h'.accepted⟩

/-! ## The whole run -/

theorem forM_settleEntry_alike {entries : List Entry} (h : Beside run keys shown done)
    (hkeys : ∀ entry ∈ entries, entry.key ∈ keys) :
    Alike run keys ((entries.forM (settleEntry run true)).run shown)
      ((entries.forM (settleEntry run false)).run done) := by
  induction entries generalizing shown done with
  | nil => exact .ok _ _ h
  | cons entry rest ih =>
    have hfirst := settleEntry_alike h (hkeys entry List.mem_cons_self)
    rw [List.forM, List.forM, EStateM.run_bind, EStateM.run_bind]
    generalize (settleEntry run true entry).run shown = first at hfirst ⊢
    generalize (settleEntry run false entry).run done = second at hfirst ⊢
    cases hfirst with
    | error err shown' done' => exact .error _ _ _
    | ok shown' done' h' =>
      exact ih h' fun entry hentry ↦ hkeys entry (List.mem_cons_of_mem _ hentry)

/-- From the same store and with ledgers side by side, the work of a preview and that of a real run
come to the same. -/
theorem runWork_alike (e : Engine) (f : PlanFormula) (p : RunPlan)
    (hstore : shown.store = done.store)
    (hlisted : done.ledger.run? run = (shown.ledger.run? run).map unmarked) : ∃ keys,
    Alike run keys ((e.runWork f p true run).run shown) ((e.runWork f p false run).run done) := by
  rw [run_runWork, run_runWork, hstore]
  cases hensure : done.store.ensureBatch p.frame.sessionId with
  | error err => exact ⟨[], .error _ _ _⟩
  | ok found =>
    obtain ⟨⟨batch, stored⟩, s⟩ := found
    dsimp only
    cases hentries : p.combinations.mapM (e.combinationEntry s f p batch) with
    | error err => exact ⟨[], .error _ _ _⟩
    | ok entries =>
      have hlatest := (Store.ensureBatch_eq_ok hensure).1
      refine ⟨entries.map Entry.key, forM_settleEntry_alike ⟨hlisted, ?_⟩ ?_⟩
      · intro key hkey
        obtain ⟨entry, hentry, rfl⟩ := List.mem_map.mp hkey
        exact (entryOf_mem hentries entry hentry).checkKey hlatest
      · exact fun entry hentry ↦ List.mem_map_of_mem hentry

/-- Where no unit of work is open, the work of a preview and of a real run decides both results. -/
theorem runFormula_alike {e : Engine} {f : PlanFormula} {request : RunRequest} {p : RunPlan}
    (hshown : e.plan f { request with preview := true } = .ok p)
    (hdone : e.plan f { request with preview := false } = .ok p)
    (hfree : e.store.inUnit = false) :
    (e.runFormula f { request with preview := false }).1 =
      (e.runFormula f { request with preview := true }).1.map fun report ↦
        { report with preview := false } := by
  -- Both runs begin in the same store, and their ledgers list a run that differs in the mark.
  have hlisted : (e.begun (.formula f.name) false).ledger.run? e.nextRun =
      ((e.begun (.formula f.name) true).ledger.run? e.nextRun).map unmarked := by
    rw [run?_begun, run?_begun]
    rfl
  have hstore : (e.begun (.formula f.name) true).store =
      (e.begun (.formula f.name) false).store := rfl
  obtain ⟨keys, hwork⟩ := runWork_alike e f p hstore hlisted
  generalize hrunShown : (e.runWork f p true e.nextRun).run _ = first at hwork
  generalize hrunDone : (e.runWork f p false e.nextRun).run _ = second at hwork
  cases hwork with
  | error err shown done =>
    rw [runFormula_of_error hshown hfree hrunShown, runFormula_of_error hdone hfree hrunDone]
    rfl
  | ok shown done h =>
    have hmoved := e.under_runWork f p true e.nextRun (e.begun (.formula f.name) true)
    rw [Working.after_of_ok hrunShown] at hmoved
    obtain ⟨run, hrun⟩ := exists_run?_of_movedTo hmoved
    have hrun' : done.ledger.run? e.nextRun = some (unmarked run) := by
      rw [h.listed, hrun]
      rfl
    rw [runFormula_of_ok hshown hfree hrunShown hrun,
      runFormula_of_ok hdone hfree hrunDone hrun']
    rfl

/-- A preview writes nothing, and the batch that it may have added goes away with its unit of
work. -/
theorem store_runFormula_of_preview {e : Engine} {f : PlanFormula} {request : RunRequest}
    {p : RunPlan} (hplan : e.plan f request = .ok p) (hpreview : request.preview = true) :
    (e.runFormula f request).2.store = e.store := by
  rcases runFormula_cases hplan with
    ⟨err, e', hrun, hfails⟩ | ⟨-, worked, run, -, -, -, hrun⟩
  · rw [hrun]
    exact hfails.same.store
  · rw [hrun]
    exact if_pos hpreview

/-- **A preview tells what a real run would do.** Run for a preview or for real, a formula fails
with the same error, or it succeeds with reports that differ in the mark of the preview only; in
particular the number of the run and all entries are the same. The preview leaves the store as it
was, with its batches and its last numbers. -/
theorem preview_exact (e : Engine) (f : PlanFormula) (request : RunRequest) :
    (e.runFormula f { request with preview := false }).1 =
        (e.runFormula f { request with preview := true }).1.map (fun report ↦
          { report with preview := false }) ∧
      (e.runFormula f { request with preview := true }).2.store = e.store := by
  -- The mark has no part in what is checked before the run.
  have hsame : ∀ preview, e.plan f { request with preview } = e.plan f request := fun _ ↦ rfl
  cases hplan : e.plan f request with
  | error err => simp only [runFormula, hsame, hplan, Except.map, and_self]
  | ok p =>
    have hshown : e.plan f { request with preview := true } = .ok p := (hsame true).trans hplan
    have hdone : e.plan f { request with preview := false } = .ok p := (hsame false).trans hplan
    refine ⟨?_, store_runFormula_of_preview hshown rfl⟩
    by_cases hactive : e.store.inUnit = true
    · rw [runFormula_of_active hshown hactive, runFormula_of_active hdone hactive]
      rfl
    · exact runFormula_alike hshown hdone (Bool.eq_false_iff.mpr hactive)

end PlanLedger.Engine
