import PlanLedger.Proofs.Planning.Accounts
import PlanLedger.Proofs.Planning.Outcome
import PlanLedger.Proofs.Planning.Reachable
import PlanLedger.Proofs.Planning.Settling
import PlanLedger.Proofs.Store.Alike

/-!
# Formulas and units

A formula writes to the newest batch of its session. A row that is there gets a new value and keeps
its units and its reference value. A cell whose current fact lies in an older batch has no row
there: one is added with the new value and nothing else, and from then on it is what readers see of
the cell. So a formula keeps the units of a cell exactly if the cell was last written in the newest
batch of the session, or if it has no units to lose.
-/

namespace PlanLedger

/-- Values without units and with no reference value are a value and nothing else. -/
theorem FactValues.with_value_eq_iff (values : FactValues) {value : Decimal} :
    { values with value } = ({ value } : FactValues) ↔ values = { value := values.value } := by
  obtain ⟨old, refValue, unit, refUnit⟩ := values
  simp

namespace Store

variable {s : Store}

theorem eq_of_ensureBatch (hs : s.WellFormed) {fact : Fact} (hfact : fact ∈ s.allFacts)
    {session : SessionId} (hsession : fact.cell.session = session) {found : BatchId × Batch}
    {s' : Store} (h : s.ensureBatch session = .ok (found, s')) : s' = s := by
  rcases (ensureBatch_eq_ok h).2 with hsame | ⟨hnone, -⟩
  · exact hsame
  · obtain ⟨batch, hstored, howned⟩ := hs.exists_batch hfact
    have hmem := mem_batchesOf_iff.mpr ⟨hstored, howned.trans hsession⟩
    rw [hnone] at hmem
    exact absurd hmem List.not_mem_nil

/-- What a batch holds of a cell that no newer batch holds: the current fact of the cell, or
nothing. -/
theorem values?_of_noneNewer {c : Cell} {batch : BatchId} (h : s.NoneNewer (c.inBatch batch))
    {fact : Fact} (hfact : s.currentFact? c = some fact) :
    s.values? (c.inBatch batch) = if fact.key.batch = batch then some fact.values else none := by
  obtain ⟨hnewest, rfl⟩ := currentFact?_eq_some_iff.mp hfact
  rw [values?]
  split_ifs with hbatch
  · have hstored : s.find? (fact.cell.inBatch batch) = some fact :=
      find?_eq_some_iff.mpr ⟨hnewest.mem, by rw [← hbatch]; rfl⟩
    rw [hstored, Option.map_some]
  · rw [Option.map_eq_none_iff]
    refine Option.eq_none_iff_forall_ne_some.mpr fun other hother ↦ hbatch ?_
    -- A row of the cell in the batch is neither older nor newer than the current fact.
    obtain ⟨hmem, hkey⟩ := find?_eq_some_iff.mp hother
    have hcell : other.cell = fact.cell := by
      rw [Fact.cell, hkey]
      rfl
    have hle := hnewest.newest other hmem hcell
    rw [hkey] at hle
    exact Nat.le_antisymm (h fact hnewest.mem rfl) hle

end Store

/-- The entry of a run that is listed last under a key. -/
def RunReport.lastUnder? (report : RunReport) (key : FactKey) : Option RunEntry :=
  (report.entries.filter fun entry ↦ entry.key = key).getLast?

namespace Engine

variable {e : Engine} {f : PlanFormula} {request : RunRequest} {p : RunPlan} {batch : BatchId}
  {s : Store} {entries : List Entry}

theorem exists_lastUnder? {report : RunReport}
    (hreport : report.entries.map RunEntry.toEntry = entries) {entry : RunEntry}
    (hentry : entry ∈ report.entries) : ∃ last, report.lastUnder? entry.key = some last ∧
      (entries.filter fun other ↦ other.key = entry.key).getLast? = some last.toEntry := by
  have hmem : entry ∈ report.entries.filter fun other ↦ other.key = entry.key :=
    List.mem_filter.mpr ⟨hentry, by simp⟩
  obtain ⟨last, hlast⟩ :=
    Option.isSome_iff_exists.mp (List.getLast?_isSome.mpr (List.ne_nil_of_mem hmem))
  refine ⟨last, hlast, ?_⟩
  have hfilter : (entries.filter fun other ↦ other.key = entry.key) =
      (report.entries.filter fun other ↦ other.key = entry.key).map RunEntry.toEntry := by
    rw [← hreport, List.filter_map]
    rfl
  rw [hfilter, List.getLast?_map, hlast, Option.map_some]

theorem Calculates.currentValues?_applyAll (h : e.Calculates f request p batch s entries)
    (hs : e.store.WellFormed) {entry : Entry} (hentry : entry ∈ entries) :
    (Write.applyAll s (entries.map Entry.toWrite)).currentValues? entry.key.cell =
      (Write.applyAll s (entries.map Entry.toWrite)).values? entry.key := by
  obtain ⟨stored, hensure⟩ := h.writesTo
  have hlatest := (Store.ensureBatch_eq_ok hensure).1
  -- A batch that was added for the run has no facts, so the old values are the same.
  have hof := h.calculated
  rw [mapM_congr fun b _ ↦
    (combinationEntry_eq_of_facts_eq (Store.facts_ensureBatch hensure) batch b).symm] at hof
  replace hof := entryOf_mem hof
  rw [(plan_eq_ok h.plan).session_id] at hof
  have htruthful : ∀ w ∈ entries.map Entry.toWrite, w.Truthful s fun _ ↦ batch := by
    intro w hw
    obtain ⟨other, hother, rfl⟩ := List.mem_map.mp hw
    exact (hof other hother).truthful (hs.edit (Store.edit_ensureBatch hensure)) hlatest
  have hmem : entry.toWrite ∈ Write.onCell entry.key.cell (entries.map Entry.toWrite) :=
    List.mem_filter.mpr ⟨List.mem_map_of_mem hentry, by simp⟩
  obtain ⟨last, hlast⟩ :=
    Option.isSome_iff_exists.mp (List.getLast?_isSome.mpr (List.ne_nil_of_mem hmem))
  obtain ⟨fact, hfind, hcurrent, -⟩ := Write.currentFact?_applyAll htruthful hlast
  -- All writes of the cell go to the batch, so the last one has the key of the entry.
  obtain ⟨hwritten, hcell⟩ := List.mem_filter.mp (List.mem_of_getLast? hlast)
  have hcell : last.key.cell = entry.key.cell := by simpa using hcell
  have hkey : last.key = entry.key := by
    calc
      last.key = last.key.cell.inBatch last.key.batch := rfl
      _ = entry.key.cell.inBatch entry.key.batch := by
        rw [hcell, (htruthful last hwritten).placed, (hof entry hentry).batch_eq]
      _ = entry.key := rfl
  rw [Store.currentValues?, hcurrent, Store.values?, ← hkey, hfind]

/-- **Formulas and units.** Let a formula that is run on a reachable engine list an entry for a cell
with a current fact. The entry is in the newest batch of the session, and afterwards the cell has
the value of the last entry under the same key. If the current fact lay in that batch, the rest of
it is kept. If it lay in an older one, the cell has the value and nothing else. So units and
reference value are kept exactly if the fact lay in the newest batch or had none. -/
theorem runFormula_keeps_units_iff (h : e.Reachable) (hreal : request.preview = false)
    {report : RunReport} (hrun : (e.runFormula f request).1 = .ok report) {entry : RunEntry}
    (hentry : entry ∈ report.entries) {fact : Fact}
    (hfact : e.store.currentFact? entry.key.cell = some fact) :
    ∃ stored last, e.store.IsLatestBatch request.session entry.key.batch stored ∧
      report.lastUnder? entry.key = some last ∧
      (e.runFormula f request).2.store.currentValues? entry.key.cell =
        some (if fact.key.batch = entry.key.batch then
          { fact.values with value := last.newValue } else { value := last.newValue }) ∧
      ((e.runFormula f request).2.store.currentValues? entry.key.cell =
          some { fact.values with value := last.newValue } ↔
        fact.key.batch = entry.key.batch ∨ fact.values = { value := fact.value }) := by
  have hs := h.wellFormed
  obtain ⟨p, batch, s, entries, hcalc, rfl⟩ := exists_calculates hrun
  obtain ⟨ledger, -, hdone⟩ := hcalc.runFormula_eq
  rw [hreal, if_neg Bool.false_ne_true] at hdone
  obtain ⟨last, hlast, hlisted⟩ := exists_lastUnder? (toEntry_listed f request entries) hentry
  have hmem : entry.toEntry ∈ entries := by
    rw [← toEntry_listed f request entries]
    exact List.mem_map_of_mem hentry
  obtain ⟨hbatch, hsession, -⟩ := entryOf_mem hcalc.calculated _ hmem
  rw [(plan_eq_ok hcalc.plan).session_id] at hsession
  obtain ⟨stored, hensure⟩ := hcalc.writesTo
  -- As the session has a fact it has a batch, so none was added for the run.
  obtain ⟨hnewest, hcell⟩ := Store.currentFact?_eq_some_iff.mp hfact
  have hof : fact.cell.session = request.session := by
    rw [hcell]
    exact hsession
  obtain rfl : s = e.store := Store.eq_of_ensureBatch hs hnewest.mem hof hensure
  have hlatest : e.store.IsLatestBatch request.session batch stored :=
    (Store.ensureBatch_eq_ok hensure).1
  rw [← hbatch] at hlatest
  have hheld : e.store.values? entry.key =
      if fact.key.batch = entry.key.batch then some fact.values else none :=
    Store.values?_of_noneNewer (hlatest.noneNewer hs hsession) hfact
  have hafter : (e.runFormula f request).2.store.currentValues? entry.key.cell =
      some { (e.store.values? entry.key).getD {} with value := last.newValue } := by
    rw [hdone, ← Entry.foldl_overwrite_apply hlisted, ← Entry.values?_applyAll]
    exact hcalc.currentValues?_applyAll hs hmem
  rw [hheld] at hafter
  refine ⟨stored, last, hlatest, hlast, ?_⟩
  by_cases hplace : fact.key.batch = entry.key.batch
  · rw [if_pos hplace] at hafter ⊢
    exact ⟨hafter, iff_of_true hafter (.inl hplace)⟩
  · rw [if_neg hplace] at hafter ⊢
    refine ⟨hafter, ?_⟩
    rw [hafter, Option.some_inj, or_iff_right hplace, eq_comm]
    exact fact.values.with_value_eq_iff

/-- A formula that gives a cell the value `20`. -/
private def assignTwenty : PlanFormula := { name := "twenty", text := "[REV] = 20" }

/-- The entry of the formula for the first cell of the small plan in a batch. -/
private def twentyEntry (batch : BatchId) : RunEntry where
  key := (smallCell 1).inBatch batch
  cellName := "REV"
  oldValue := ten
  newValue := twenty.padTo 4
  seq := 0

/-- The values of the first cell before the formula. -/
private def tenEuros : FactValues := { value := ten, unit := some "EUR" }

/-- The small plan with its first fact in euros. -/
private def euroPlan : Engine := smallPlan.after (.loadFact (smallCell 1) tenEuros)

/-- The plan with a second batch in its first session, which was copied from the second session and
has a row of the second cell only. -/
private def copiedPlan : Engine :=
  (euroPlan.after (.loadFact { smallCell 2 with session := 2 } { value := ten })).after
    (.run (.function (.copy "P0" "2024" none) 2))

/-- In its newest batch the fact in euros gets a new value and stays in euros. -/
theorem runFormula_keeps_units_iff_euroPlan : euroPlan.Reachable ∧ ∃ report,
    (euroPlan.runFormula assignTwenty { session := 1, period := some "01" }).1 = .ok report ∧
      report.entries = [twentyEntry 1] ∧
      (euroPlan.runFormula assignTwenty
        { session := 1, period := some "01" }).2.store.currentValues? (smallCell 1) =
          some { tenEuros with value := twenty.padTo 4 } := by
  have hreachable : euroPlan.Reachable := reachable_smallPlan.call _
  let report : RunReport := ⟨1, .formula "twenty", false, [twentyEntry 1]⟩
  have hrun : (euroPlan.runFormula assignTwenty { session := 1, period := some "01" }).1 =
      .ok report := by
    decide +kernel
  have hfact : euroPlan.store.currentFact? (smallCell 1) =
      some ⟨1, (smallCell 1).inBatch 1, tenEuros⟩ := by
    decide +kernel
  have hentry : twentyEntry 1 ∈ report.entries := List.mem_singleton_self _
  obtain ⟨-, last, -, hlast, hvalues, -⟩ :=
    runFormula_keeps_units_iff hreachable rfl hrun hentry hfact
  obtain rfl : twentyEntry 1 = last := Option.some_inj.mp hlast
  exact ⟨hreachable, report, hrun, rfl, hvalues⟩

/-- After the copy the fact in euros is still the one that readers see, and its value is listed as
the old one. The formula leaves a value without a unit for the cell. -/
theorem runFormula_loses_units : copiedPlan.Reachable ∧ ∃ report,
    (copiedPlan.runFormula assignTwenty { session := 1, period := some "01" }).1 = .ok report ∧
      report.entries = [twentyEntry 3] ∧
      copiedPlan.store.currentValues? (smallCell 1) = some tenEuros ∧
      (copiedPlan.runFormula assignTwenty
        { session := 1, period := some "01" }).2.store.currentValues? (smallCell 1) =
          some { value := twenty.padTo 4 } := by
  have hreachable : copiedPlan.Reachable := ((reachable_smallPlan.call _).call _).call _
  exact ⟨hreachable, ⟨2, .formula "twenty", false, [twentyEntry 3]⟩, by decide +kernel, rfl,
    by decide +kernel, by decide +kernel⟩

end Engine

end PlanLedger
