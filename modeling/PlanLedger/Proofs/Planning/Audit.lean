import PlanLedger.Proofs.Planning.Accounts
import PlanLedger.Proofs.Planning.Reachable

/-!
# The ledger as an audit

The entries of a successful run account for all that it did to the values of cells: each old value
was the current value before the run, each last new value is the current value after it, and a cell
without an entry keeps its current fact. The work of the run was accounted for by truthful writes,
and the entries are those of the writes, numbered by their places.
-/

namespace PlanLedger

/-- Entries that tell truly what happened to the cells of a store. -/
structure Audited (before after : Store) (entries : List RunEntry) : Prop where
  numbered : entries.map RunEntry.seq = List.range entries.length
  old_eq : ∀ entry ∈ entries, entry.oldValue = before.currentValue entry.key.cell
  /-- The last entry of a cell gives the current value of the cell, in the row of its key. -/
  last : ∀ c entry, (entries.filter fun other ↦ other.key.cell = c).getLast? = some entry →
    after.currentValue c = entry.newValue ∧
      ∃ fact, after.find? entry.key = some fact ∧ after.currentFact? c = some fact
  /-- A cell without an entry keeps its current fact, and with it its value. -/
  untouched : ∀ c, (∀ entry ∈ entries, entry.key.cell ≠ c) →
    after.currentFact? c = before.currentFact? c ∧ after.currentValue c = before.currentValue c

theorem Audited.of_facts {s s' before after : Store} {entries : List RunEntry}
    (h : Audited s s' entries) (hbefore : before.facts = s.facts)
    (hafter : after.facts = s'.facts) : Audited before after entries where
  numbered := h.numbered
  old_eq entry hentry := by
    rw [h.old_eq entry hentry, Store.currentValue_of_facts hbefore]
  last c entry hlast := by
    obtain ⟨hvalue, fact, hfind, hcurrent⟩ := h.last c entry hlast
    refine ⟨?_, fact, ?_, ?_⟩
    · rw [Store.currentValue_of_facts hafter, hvalue]
    · rw [Store.find?, hafter]
      exact hfind
    · rw [Store.currentFact?_of_facts hafter, hcurrent]
  untouched c hother := by
    rw [Store.currentFact?_of_facts hafter, Store.currentFact?_of_facts hbefore,
      Store.currentValue_of_facts hafter, Store.currentValue_of_facts hbefore]
    exact h.untouched c hother

/-! ## From writes to entries -/

private theorem exists_last_write {entries : List RunEntry} {ws : List Write}
    (h : entries.map RunEntry.toEntry = ws.map Write.entry) {c : Cell} {entry : RunEntry}
    (hlast : (entries.filter fun other ↦ other.key.cell = c).getLast? = some entry) :
    ∃ w, (Write.onCell c ws).getLast? = some w ∧ w.entry = entry.toEntry := by
  have hcell : (entries.filter fun other ↦ other.key.cell = c).map RunEntry.toEntry =
      (Write.onCell c ws).map Write.entry := by
    calc
      (entries.filter fun other ↦ other.key.cell = c).map RunEntry.toEntry =
          (entries.map RunEntry.toEntry).filter fun other ↦ other.key.cell = c := by
        rw [List.filter_map]
        rfl
      _ = (ws.map Write.entry).filter fun other ↦ other.key.cell = c := by rw [h]
      _ = (Write.onCell c ws).map Write.entry := by
        rw [List.filter_map]
        rfl
  have hsome := congrArg List.getLast? hcell
  rw [List.getLast?_map, List.getLast?_map, hlast, Option.map_some] at hsome
  exact Option.map_eq_some_iff.mp hsome.symm

/-- **From writes to entries.** Entries of truthful writes, numbered by their places, are an audit
of the writes. -/
theorem audited_applyAll {s : Store} {place : Cell → BatchId} {ws : List Write}
    {entries : List RunEntry} (hws : ∀ w ∈ ws, w.Truthful s place)
    (hmap : entries.map RunEntry.toEntry = ws.map Write.entry)
    (hnumbered : entries.map RunEntry.seq = List.range entries.length) :
    Audited s (Write.applyAll s ws) entries where
  numbered := hnumbered
  old_eq entry hentry := by
    have hmem : entry.toEntry ∈ ws.map Write.entry := by
      rw [← hmap]
      exact List.mem_map_of_mem hentry
    obtain ⟨w, hw, heq⟩ := List.mem_map.mp hmem
    have hold := (hws w hw).old_eq
    rwa [Write.key, heq] at hold
  last c entry hlast := by
    obtain ⟨w, hw, heq⟩ := exists_last_write hmap hlast
    obtain ⟨fact, hfind, hcurrent, hvalue⟩ := Write.currentFact?_applyAll hws hw
    rw [Write.key, heq] at hfind
    rw [heq] at hvalue
    refine ⟨?_, fact, hfind, hcurrent⟩
    rw [Store.currentValue, hcurrent]
    exact hvalue
  untouched c hother := by
    -- A write of the cell would have an entry.
    have huntouched : ∀ w ∈ ws, w.key.cell ≠ c := by
      intro w hw hcell
      have hmem : w.entry ∈ entries.map RunEntry.toEntry := by
        rw [hmap]
        exact List.mem_map_of_mem hw
      obtain ⟨entry, hentry, heq⟩ := List.mem_map.mp hmem
      refine hother entry hentry ?_
      rw [← hcell, Write.key, ← heq]
    have hcurrent := Write.currentFact?_applyAll_of_forall_ne (s := s) huntouched
    rw [Store.currentValue, Store.currentValue, hcurrent]
    exact ⟨rfl, rfl⟩

namespace Books.AccountedFor

variable {b b' : Books} {run : RunId} {ws : List Write} {source : RunSource} {preview : Bool}

/-- If work under a new run is accounted for, the entries of the run are an audit of it. -/
theorem audited (h : b.AccountedFor run ws b')
    (hbegun : b.ledger.run? run = some { source, preview }) (before after : Store)
    (hbefore : before.facts = b.store.facts) (hafter : after.facts = b'.store.facts) :
    Audited before after (b'.ledger.entries run) ∧ (b'.ledger.entries run).length = ws.length := by
  obtain ⟨s, place, hfacts, hws, hwrote⟩ := h
  rw [hwrote.entries_eq hbegun]
  have hmap := Write.entries_listAll { source, preview } ws
  have hlength : (Write.listAll { source, preview } ws).entries.length = ws.length := by
    simpa using congrArg List.length hmap
  refine ⟨(audited_applyAll hws hmap (Write.seq_listAll rfl ws)).of_facts ?_ ?_, hlength⟩
  · exact hbefore.trans hfacts.symm
  · rw [hafter, hwrote.store]

end Books.AccountedFor

/-! ## Successful runs -/

namespace Engine

variable {e : Engine}

theorem audited_runFormula (h : e.store.WellFormed) {f : PlanFormula} {request : RunRequest}
    (hpreview : request.preview = false) {report : RunReport}
    (hrun : (e.runFormula f request).1 = .ok report) :
    (e.runFormula f request).2.ledger.entries report.id = report.entries ∧
      Audited e.store (e.runFormula f request).2.store report.entries := by
  cases hplan : e.plan f request with
  | error err =>
    simp only [runFormula, hplan] at hrun
    cases hrun
  | ok p =>
    rcases runFormula_cases hplan with
      ⟨err, e', heq, -⟩ | ⟨-, worked, run, hwork, -, hlisted, heq⟩
    · rw [heq] at hrun
      cases hrun
    · rw [heq] at hrun ⊢
      cases hrun
      have hentries : worked.ledger.entries e.nextRun = run.entries := by
        rw [Ledger.entries, hlisted]
        rfl
      rw [hpreview] at hwork ⊢
      obtain ⟨ws, haccount⟩ := accountedFor_runWork (wellFormed_begun h _ _) hwork
      have haudit := (haccount.audited (run?_begun _ _) e.store { worked.store with saved := none }
        rfl rfl).1
      rw [hentries] at haudit
      exact ⟨hentries, haudit⟩

theorem audited_runFunction (h : e.store.WellFormed) {f : PlanningFunction} {id : SessionId}
    {outcome : FunctionOutcome} (hrun : (e.runFunction f id).1 = .ok outcome) :
    (e.runFunction f id).2.ledger.entries outcome.run = outcome.entries ∧
      Audited e.store (e.runFunction f id).2.store outcome.entries ∧
      outcome.affected = outcome.entries.length := by
  cases hsession : e.sessionOfWork id with
  | error err =>
    simp only [runFunction, hsession] at hrun
    cases hrun
  | ok session =>
    rcases runFunction_cases (f := f) hsession with
      ⟨err, e', heq, -⟩ | ⟨-, tally, worked, hwork, -, heq⟩
    · rw [heq] at hrun
      cases hrun
    · rw [heq] at hrun ⊢
      cases hrun
      obtain ⟨ws, haccount, hcount⟩ := f.accountedFor_work (wellFormed_begun h _ _) hwork
      obtain ⟨haudit, hlength⟩ := haccount.audited (run?_begun _ _) e.store
        { worked.store with saved := none } rfl rfl
      exact ⟨rfl, haudit, hcount.trans hlength.symm⟩

/-- **The ledger is a complete and truthful audit.** In a reachable engine every run that succeeds,
of a formula that is not a preview or of any planning function, is listed in the ledger with the
entries it reports. They are numbered from zero, they give the current values before the run as old
ones and the current values after it as last new ones, and they miss no cell that was changed. A
planning function affects as many facts as it lists. -/
theorem successful_run_audited (h : e.Reachable) :
    (∀ f request report, request.preview = false → (e.runFormula f request).1 = .ok report →
      (e.runFormula f request).2.ledger.entries report.id = report.entries ∧
        Audited e.store (e.runFormula f request).2.store report.entries) ∧
    ∀ f session outcome, (e.runFunction f session).1 = .ok outcome →
      (e.runFunction f session).2.ledger.entries outcome.run = outcome.entries ∧
        Audited e.store (e.runFunction f session).2.store outcome.entries ∧
        outcome.affected = outcome.entries.length :=
  ⟨fun _ _ _ hpreview hrun ↦ audited_runFormula h.wellFormed hpreview hrun,
    fun _ _ _ hrun ↦ audited_runFunction h.wellFormed hrun⟩

/-- A formula that doubles the current value of a cell. -/
private def doubling : PlanFormula := { name := "double", text := "[REV] = [REV] * 2" }

/-- The report of doubling the first fact of the small plan. -/
private def doubled : RunReport where
  id := 1
  source := .formula "double"
  preview := false
  entries := [{ key := (smallCell 1).inBatch 1, cellName := "REV", oldValue := ten,
                newValue := twenty.padTo 4, seq := 0 }]

/-- The outcome of setting both facts of the small plan to zero. -/
private def cleared : FunctionOutcome where
  run := 1
  affected := 2
  errors := []
  entries :=
    [{ key := (smallCell 1).inBatch 1, cellName := "REV[Version=P0,Year=2024,Period=01,OrgUnit=O1]",
       oldValue := ten, newValue := .zero, seq := 0 },
     { key := (smallCell 2).inBatch 1, cellName := "REV[Version=P0,Year=2024,Period=01,OrgUnit=2]",
       oldValue := twenty, newValue := .zero, seq := 1 }]

/-- In the small plan a formula and a planning function succeed, and their entries are audits. -/
theorem successful_run_audited_smallPlan :
    (smallPlan.runFormula doubling { session := 1, period := some "01" }).1 = .ok doubled ∧
      Audited smallPlan.store
        (smallPlan.runFormula doubling { session := 1, period := some "01" }).2.store
        doubled.entries ∧
      (smallPlan.runFunction (.resetSlice ∅) 1).1 = .ok cleared ∧
      Audited smallPlan.store (smallPlan.runFunction (.resetSlice ∅) 1).2.store
        cleared.entries := by
  have hformula :
      (smallPlan.runFormula doubling { session := 1, period := some "01" }).1 = .ok doubled := by
    decide +kernel
  have hfunction : (smallPlan.runFunction (.resetSlice ∅) 1).1 = .ok cleared := by
    decide +kernel
  obtain ⟨hformulas, hfunctions⟩ := successful_run_audited reachable_smallPlan
  exact ⟨hformula, (hformulas _ _ _ rfl hformula).2, hfunction, (hfunctions _ _ _ hfunction).2.1⟩

end Engine

end PlanLedger
