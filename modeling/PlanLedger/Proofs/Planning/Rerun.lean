import PlanLedger.Proofs.Planning.Independence
import PlanLedger.Proofs.Planning.Units

/-!
# Running a formula again

A formula that reads no key figure that it assigns cannot see what it has written. Run again on the
same session, it finds the batch that it wrote to and calculates the same new values under the same
keys and names. Only the old values differ: they are those that the first run left. Several
combinations may assign one cell; of these the last one counts, in either run. So the second run
gives every row what the row holds already, and the store stays as it is.
-/

namespace PlanLedger

open Formula (Bindings)
open Store (AgreeOn)

/-! ## Writing again -/

/-- The entry with the value that its cell has in a store as the old one. -/
def Entry.seenFrom (s : Store) (entry : Entry) : Entry :=
  { entry with oldValue := s.currentValue entry.key.cell }

theorem Entry.foldl_overwrite_of_forall_ne {entries : List Entry} {key : FactKey}
    (h : ∀ entry ∈ entries, entry.key ≠ key) (held : FactKey → Option FactValues) :
    entries.foldl overwrite held key = held key := by
  induction entries generalizing held with
  | nil => rfl
  | cons entry rest ih =>
    obtain ⟨hentry, hrest⟩ := List.forall_mem_cons.mp h
    rw [List.foldl_cons, ih hrest, overwrite, Function.update_of_ne hentry.symm]

theorem Entry.exists_getLast?_of_key {entries : List Entry} {key : FactKey}
    (h : ∃ entry ∈ entries, entry.key = key) :
    ∃ last, (entries.filter fun entry ↦ entry.key = key).getLast? = some last := by
  obtain ⟨entry, hentry, hkey⟩ := h
  have hmem : entry ∈ entries.filter fun entry ↦ entry.key = key :=
    List.mem_filter.mpr ⟨hentry, by simpa using hkey⟩
  exact Option.isSome_iff_exists.mp (List.getLast?_isSome.mpr (List.ne_nil_of_mem hmem))

/-- Entries that are written twice leave what they leave when they are written once. -/
theorem Entry.foldl_overwrite_again (entries : List Entry) (held : FactKey → Option FactValues) :
    entries.foldl overwrite (entries.foldl overwrite held) = entries.foldl overwrite held := by
  funext key
  by_cases h : ∃ entry ∈ entries, entry.key = key
  · -- The last entry of the key decides, both times.
    obtain ⟨last, hlast⟩ := exists_getLast?_of_key h
    rw [foldl_overwrite_apply hlast, foldl_overwrite_apply hlast, Option.getD_some]
  · rw [foldl_overwrite_of_forall_ne fun entry hentry hkey ↦ h ⟨entry, hentry, hkey⟩]

namespace Write

variable {s : Store} {ws : List Write}

theorem applyAll_of_stored (h : ∀ w ∈ ws, s.facts.contains w.key = true) :
    applyAll s ws = { s with facts := (applyAll s ws).facts } := by
  induction ws generalizing s with
  | nil => rfl
  | cons w rest ih =>
    obtain ⟨hw, hrest⟩ := List.forall_mem_cons.mp h
    have hstep : w.applyTo s = { s with facts := (w.applyTo s).facts } := by
      rw [applyTo, Store.written, if_pos hw]
    have hstored : ∀ v ∈ rest, (w.applyTo s).facts.contains v.key = true := by
      intro v hv
      obtain ⟨row, hrow⟩ := Option.isSome_iff_exists.mp (hrest v hv)
      obtain ⟨row', hrow', -⟩ := (rowsWritten_applyAll s [w]).rows v.key row hrow
      exact Option.isSome_of_eq_some hrow'
    have hall : applyAll s (w :: rest) = applyAll (w.applyTo s) rest := rfl
    rw [hall, ih hstored]
    rw [hstep]

/-- Writes that leave every key its values leave the store as it is, if all of their keys have
rows. -/
theorem applyAll_eq_self (h : ∀ w ∈ ws, s.facts.contains w.key = true)
    (hvalues : (applyAll s ws).values? = s.values?) : applyAll s ws = s := by
  have hrows := rowsWritten_applyAll s ws
  have hfacts : (applyAll s ws).facts = s.facts := by
    refine SortedMap.ext_get? fun key ↦ ?_
    cases hrow : s.facts.get? key with
    | none =>
      -- A key that has no row is not one of those that are written.
      rw [hrows.others key, hrow]
      rintro ⟨w, hw, rfl⟩
      have hstored := h w hw
      rw [SortedMap.contains, hrow] at hstored
      cases hstored
    | some row =>
      obtain ⟨row', hrow', hid⟩ := hrows.rows key row hrow
      have hsame := congrFun hvalues key
      simp only [Store.values?, Store.find?, hrow, hrow', Option.map_some, Option.some_inj] at hsame
      obtain ⟨id, values⟩ := row
      obtain ⟨id', values'⟩ := row'
      rw [hrow']
      cases hid
      cases hsame
      rfl
  rw [applyAll_of_stored h, hfacts]

end Write

theorem Entry.applyAll_again (s : Store) (entries : List Entry) :
    Write.applyAll (Write.applyAll s (entries.map toWrite)) (entries.map toWrite) =
      Write.applyAll s (entries.map toWrite) := by
  refine Write.applyAll_eq_self (fun w hw ↦ ?_) ?_
  · obtain ⟨entry, hentry, rfl⟩ := List.mem_map.mp hw
    obtain ⟨last, hlast⟩ := exists_getLast?_of_key ⟨entry, hentry, rfl⟩
    have hvalues := congrFun (values?_applyAll s entries) entry.key
    rw [foldl_overwrite_apply hlast] at hvalues
    obtain ⟨fact, hfact, -⟩ := Option.map_eq_some_iff.mp hvalues
    obtain ⟨row, hrow, -⟩ := Option.map_eq_some_iff.mp hfact
    exact Option.isSome_of_eq_some hrow
  · rw [values?_applyAll, values?_applyAll, foldl_overwrite_again]

theorem Entry.applyAll_seenFrom (s t : Store) (entries : List Entry) :
    Write.applyAll s ((entries.map (seenFrom t)).map toWrite) =
      Write.applyAll s (entries.map toWrite) := by
  induction entries generalizing s with
  | nil => rfl
  | cons entry rest ih => exact ih (entry.toWrite.applyTo s)

namespace Engine

variable {e : Engine} {f : PlanFormula} {request : RunRequest} {p : RunPlan} {batch : BatchId}
  {s : Store} {entries : List Entry}

theorem listed_seenFrom (f : PlanFormula) (request : RunRequest) (t : Store)
    (entries : List Entry) :
    listed f request (entries.map (Entry.seenFrom t)) =
      { listed f request entries with
        entries := (listed f request entries).entries.map fun entry ↦
          { entry with oldValue := t.currentValue entry.key.cell } } := by
  have hadd (entries : List Entry) (entry : Entry) :
      listed f request (entries ++ [entry]) = (listed f request entries).add entry := by
    rw [listed, List.map_append, Write.listAll_append]
    rfl
  induction entries using List.reverseRecOn with
  | nil => rfl
  | append_singleton entries entry ih =>
    rw [List.map_append, List.map_singleton, hadd, hadd, ih]
    simp [Run.add, Entry.seenFrom]

/-! ## What is read and what is written -/

/-- A formula that reads none of the key figures that it assigns. -/
def ReadsNoTarget (e : Engine) (f : PlanFormula) : Prop :=
  ∀ compiled, e.compile f = .ok compiled → ∀ b keyFigure,
    compiled.statement.target.resolveKeyFigure e.registry b = .ok keyFigure →
      ¬ compiled.statement.expr.Reads e.catalog e.registry keyFigure

/-- Where no value is read from what was written, each combination has the same entry after the
writes, but for its old value. -/
theorem combinationEntry_seenFrom {b : Bindings} {cells : Cell → Prop} {t : Store}
    (hwithin : e.ValueWithin p b cells) (hagree : AgreeOn cells s t) {entry : Entry}
    (h : e.combinationEntry s f p batch b = .ok entry) :
    e.combinationEntry t f p batch b = .ok (entry.seenFrom t) := by
  rw [combinationEntry] at h ⊢
  obtain ⟨⟨c, name⟩, htarget, h⟩ := bind_eq_ok.mp h
  obtain ⟨value, hvalue, h⟩ := bind_eq_ok.mp h
  cases h
  rw [htarget, ok_bind, ← combinationValue_congr hwithin hagree, hvalue]
  rfl

/-- A run that succeeds can be repeated on what it left, with the same entries but for their old
values. -/
theorem Calculates.again (h : e.Calculates f request p batch s entries)
    (hreads : e.ReadsNoTarget f) (ledger : Ledger) {t : Store}
    (ht : t = Write.applyAll s (entries.map Entry.toWrite)) :
    { e with store := t, ledger }.Calculates f request p batch t
      (entries.map (Entry.seenFrom t)) := by
  subst ht
  refine h.after_writes _ ledger ?_
  generalize ht : Write.applyAll s (entries.map Entry.toWrite) = t
  obtain ⟨stored, hensure⟩ := h.writesTo
  -- No entry is of a key figure that the expression reads.
  have hagree : AgreeOn (fun c ↦ p.compiled.statement.expr.Reads e.catalog e.registry c.keyFigure)
      e.store t := by
    refine (AgreeOn.of_facts_eq (Store.facts_ensureBatch hensure).symm).trans ?_
    rw [← ht]
    refine Write.agreeOn_applyAll s fun w hw hread ↦ ?_
    obtain ⟨entry, hentry, rfl⟩ := List.mem_map.mp hw
    obtain ⟨b, -, hcalculated⟩ := exists_mem_of_mapM_eq_ok h.calculated hentry
    exact hreads _ (compile_eq_of_plan h.plan) b _
      (resolveKeyFigure_of_combinationEntry hcalculated) hread
  have hwithin := valueWithin_of_reads (e := e) (p := p)
    (p.compiled.statement.expr.Reads e.catalog e.registry) fun _ hread ↦ hread
  rw [mapM_eq_ok, List.forall₂_map_right_iff]
  exact (mapM_eq_ok.mp h.calculated).imp fun b entry hentry ↦
    combinationEntry_seenFrom (hwithin b) hagree hentry

/-- **Running a formula again.** Let a formula read none of the key figures that it assigns, and let
a run of it succeed on a reachable engine. The same run succeeds once more. Its entries have the
same keys, names and new values in the same order; the old value of each is the value that the first
run left in the cell, which is the new value of the last entry of the first run under the same key.
The store stays exactly as the first run left it. -/
theorem rerun_changes_nothing (h : e.Reachable) (hreads : e.ReadsNoTarget f)
    (hreal : request.preview = false) {report : RunReport}
    (hrun : (e.runFormula f request).1 = .ok report) :
    ((e.runFormula f request).2.runFormula f request).1 =
        .ok { report with
          id := report.id + 1
          entries := report.entries.map fun entry ↦ { entry with
            oldValue := (e.runFormula f request).2.store.currentValue entry.key.cell } } ∧
      (∀ entry ∈ report.entries, ∃ last, report.lastUnder? entry.key = some last ∧
        (e.runFormula f request).2.store.currentValue entry.key.cell = last.newValue) ∧
      ((e.runFormula f request).2.runFormula f request).2.store =
        (e.runFormula f request).2.store := by
  obtain ⟨p, batch, s, entries, hcalc, hreport⟩ := exists_calculates hrun
  have hlisted : report.entries.map RunEntry.toEntry = entries := by
    rw [hreport]
    exact toEntry_listed f request entries
  obtain ⟨ledger, hnumber, hfirst⟩ := hcalc.runFormula_eq
  rw [hreal, if_neg Bool.false_ne_true] at hfirst
  have hheld {entry : Entry} (hentry : entry ∈ entries) :=
    hcalc.currentValues?_applyAll h.wellFormed hentry
  have hvalues := Entry.values?_applyAll s entries
  have hagain := Entry.applyAll_again s entries
  have hcalc' := hcalc.again hreads ledger rfl
  rw [hfirst]
  generalize Write.applyAll s (entries.map Entry.toWrite) = t at hheld hvalues hagain hcalc' ⊢
  obtain ⟨ledger', -, hsecond⟩ := hcalc'.runFormula_eq
  rw [hreal, if_neg Bool.false_ne_true] at hsecond
  dsimp only
  rw [hsecond]
  refine ⟨?_, fun entry hentry ↦ ?_, ?_⟩
  · rw [hreport, listed_seenFrom, nextRun, hnumber]
  · obtain ⟨last, hlast, hfilter⟩ := exists_lastUnder? hlisted hentry
    refine ⟨last, hlast, ?_⟩
    have hmem : entry.toEntry ∈ entries := by
      rw [← hlisted]
      exact List.mem_map_of_mem hentry
    have hcurrent := hheld hmem
    rw [hvalues, Entry.foldl_overwrite_apply hfilter] at hcurrent
    obtain ⟨fact, hfact, hvalue⟩ := Option.map_eq_some_iff.mp hcurrent
    rw [Store.currentValue, hfact, Option.map_some, Option.getD_some, Fact.value, hvalue]
  · dsimp only
    rw [Entry.applyAll_seenFrom, hagain]

/-! ### A cell that several combinations assign -/

/-- The small plan with a second key figure and a second organisational unit. -/
private def twoUnits : Engine :=
  { smallPlan with
    registry := ⟨(smallPlan.registry.lists.insert .keyFigure (masterListWith ["REV", "QTY"])).insert
      .orgUnit (masterListWith ["O1", "O2"])⟩ }

/-- A formula that gives the quantity of the session the revenue of each organisational unit in
turn. -/
private def lastRevenue : PlanFormula where
  name := "last"
  text := "[QTY] = [OrgUnit=$LOOP].[REV]"
  loopNames := ["OrgUnit"]

private def compiledLastRevenue : CompiledFormula where
  name := "last"
  statement := ⟨{ keyFigure := .id 2 },
    .cell { filters := [⟨.orgUnit, .loop⟩], keyFigure := .id 1 }⟩
  loops := [.orgUnit]
  hasReferences := false

/-- A report of the formula on the first session, by the old value of the quantity. -/
private def lastRevenueReport (id : RunId) (oldValue : Decimal) : RunReport where
  id
  source := .formula "last"
  preview := false
  entries :=
    [{ key := { smallCell 1 with keyFigure := 2 }.inBatch 1, cellName := "QTY",
       oldValue, newValue := ten.padTo 4, seq := 0 },
     { key := { smallCell 1 with keyFigure := 2 }.inBatch 1, cellName := "QTY",
       oldValue, newValue := twenty.padTo 4, seq := 1 }]

private theorem readsNoTarget_lastRevenue : twoUnits.ReadsNoTarget lastRevenue := by
  have hcompile : twoUnits.compile lastRevenue = .ok compiledLastRevenue := by
    decide +kernel
  intro compiled h b keyFigure htarget
  cases hcompile.symm.trans h
  obtain rfl : 2 = keyFigure := Except.ok.inj htarget
  rintro (⟨ref, b, href, hread⟩ | ⟨call, data, hcall, -⟩)
  · simp [compiledLastRevenue, Formula.Expr.nodes] at href
    subst href
    cases hread
  · simp [compiledLastRevenue, Formula.Expr.nodes] at hcall

/-- Both organisational units assign the same quantity, and the second one counts. Run again, the
formula lists the revenue of the first unit once more, with the revenue of the second unit as the
old value. -/
theorem rerun_changes_nothing_lastRevenue : twoUnits.Reachable ∧
    (twoUnits.runFormula lastRevenue { session := 1, period := some "01" }).1 =
      .ok (lastRevenueReport 1 .zero) ∧
    ((twoUnits.runFormula lastRevenue { session := 1, period := some "01" }).2.runFormula
      lastRevenue { session := 1, period := some "01" }).1 =
        .ok (lastRevenueReport 2 (twenty.padTo 4)) ∧
    ((twoUnits.runFormula lastRevenue { session := 1, period := some "01" }).2.runFormula
      lastRevenue { session := 1, period := some "01" }).2.store =
        (twoUnits.runFormula lastRevenue { session := 1, period := some "01" }).2.store := by
  have hreachable : twoUnits.Reachable := .new reachable_smallStore _ _ _ _
  have hrun : (twoUnits.runFormula lastRevenue { session := 1, period := some "01" }).1 =
      .ok (lastRevenueReport 1 .zero) := by
    decide +kernel
  obtain ⟨hagain, hleft, hstore⟩ :=
    rerun_changes_nothing hreachable readsNoTarget_lastRevenue rfl hrun
  obtain ⟨last, hlast, hvalue⟩ := hleft _ List.mem_cons_self
  obtain rfl : _ = last := Option.some_inj.mp hlast
  refine ⟨hreachable, hrun, ?_, hstore⟩
  rw [hagain, lastRevenueReport, lastRevenueReport, List.map_cons, List.map_cons, List.map_nil,
    hvalue]
  rfl

end Engine

end PlanLedger
