import Mathlib.Order.Basic
import PlanLedger.Proofs.Planning.Outcome
import PlanLedger.Proofs.Planning.Reachable

/-!
# The order of loop dimensions

The loop dimensions of a formula can be declared in any order. The combinations are the same
bindings, since values of different dimensions can be bound in either order, and only their
sequence changes. Each entry is calculated from its own bindings and from the store before the run,
so the entries come in another order and are otherwise the same. Where no two of them write under
the same key the writes can change places as well, and the store holds the same values afterwards.
-/

namespace PlanLedger

open Formula (Bindings)

/-! ## Combinations -/

namespace Registry

variable {r : Registry}

theorem extendBindings_comm (b : Bindings) {d d' : Dimension} (h : d ≠ d') (ids ids' : List DimId) :
    ((extendBindings b d ids).flatMap fun b' ↦ extendBindings b' d' ids').Perm
      ((extendBindings b d' ids').flatMap fun b' ↦ extendBindings b' d ids) := by
  induction ids with
  | nil => simp [extendBindings]
  | cons id rest ih =>
    -- The combinations with the first value are taken out of each of the groups on the right.
    have hout := List.map_append_flatMap_perm ids' (fun id' ↦ (b.insert d' id').insert d id)
      fun id' ↦ extendBindings (b.insert d' id') d rest
    have hfirst : extendBindings (b.insert d id) d' ids' =
        ids'.map fun id' ↦ (b.insert d' id').insert d id :=
      List.map_congr_left fun id' _ ↦ SortedMap.insert_comm b h id id'
    simp only [extendBindings, List.map_cons, List.flatMap_cons, List.flatMap_map]
      at ih hfirst hout ⊢
    rw [hfirst]
    exact (ih.append_left _).trans hout

/-- The combinations that some combinations are extended to come in another order if these do. -/
theorem combinationsFrom_perm_left {dims : List Dimension} {bs bs' cs : List Bindings}
    (hbs : bs'.Perm bs) (h : r.combinationsFrom bs dims = .ok cs) :
    ∃ cs', r.combinationsFrom bs' dims = .ok cs' ∧ cs'.Perm cs := by
  induction dims generalizing bs bs' with
  | nil =>
    cases h
    exact ⟨bs', rfl, hbs⟩
  | cons d rest ih =>
    rw [combinationsFrom] at h ⊢
    obtain ⟨ids, hids, h⟩ := bind_eq_ok.mp h
    rw [hids, ok_bind]
    exact ih (hbs.flatMap_right _) h

theorem combinationsFrom_perm {dims dims' : List Dimension} (hdims : dims.Perm dims')
    {bs cs : List Bindings} (h : r.combinationsFrom bs dims = .ok cs) :
    ∃ cs', r.combinationsFrom bs dims' = .ok cs' ∧ cs'.Perm cs := by
  induction hdims generalizing bs cs with
  | nil => exact ⟨cs, h, .refl cs⟩
  | cons d _ ih =>
    rw [combinationsFrom] at h ⊢
    obtain ⟨ids, hids, h⟩ := bind_eq_ok.mp h
    rw [hids, ok_bind]
    exact ih h
  | swap d d' rest =>
    simp only [combinationsFrom] at h ⊢
    obtain ⟨ids', hids', h⟩ := bind_eq_ok.mp h
    obtain ⟨ids, hids, h⟩ := bind_eq_ok.mp h
    rw [hids, ok_bind, hids', ok_bind]
    by_cases heq : d' = d
    · subst heq
      rw [hids] at hids'
      cases hids'
      exact ⟨cs, h, .refl cs⟩
    · refine combinationsFrom_perm_left ?_ h
      rw [List.flatMap_assoc, List.flatMap_assoc]
      exact .flatMap_left _ fun b _ ↦ extendBindings_comm b (Ne.symm heq) ids ids'
  | trans _ _ ih ih' =>
    obtain ⟨cs', hcs', hsame⟩ := ih h
    obtain ⟨cs'', hcs'', hsame'⟩ := ih' hcs'
    exact ⟨cs'', hcs'', hsame'.trans hsame⟩

end Registry

namespace Engine

variable {e : Engine} {f : PlanFormula} {request : RunRequest} {names : List String}

/-! ## Loop dimensions -/

theorem addLoop_eq_ok {loops loops' : List Dimension} {name : String} :
    e.addLoop loops name = .ok loops' ↔
      ∃ d, e.registry.dimension name = .ok d ∧ d ∉ loops ∧ loops' = loops ++ [d] := by
  rw [addLoop, bind_eq_ok]
  refine exists_congr fun d ↦ and_congr PlanningError.ofRegistry_eq_ok ?_
  by_cases h : d ∈ loops
  · simp [h]
  · rw [if_neg h]
    constructor
    · intro hloops
      exact ⟨h, (Except.ok.inj hloops).symm⟩
    · rintro ⟨-, rfl⟩
      rfl

/-- Names can be added to loop dimensions if they stand for known dimensions, each for another one
than those before it. -/
theorem foldlM_addLoop_eq_ok {acc loops : List Dimension} (hacc : acc.Nodup) :
    names.foldlM e.addLoop acc = .ok loops ↔
      ∃ dims, names.mapM e.registry.dimension = .ok dims ∧ (acc ++ dims).Nodup ∧
        loops = acc ++ dims := by
  induction names generalizing acc with
  | nil =>
    rw [List.foldlM_nil, List.mapM_nil]
    constructor
    · intro h
      cases h
      exact ⟨[], rfl, by simpa using hacc, by simp⟩
    · rintro ⟨dims, hdims, -, rfl⟩
      cases hdims
      simp only [List.append_nil]
      rfl
  | cons name rest ih =>
    rw [List.foldlM_cons, List.mapM_cons, bind_eq_ok]
    simp only [addLoop_eq_ok]
    constructor
    · rintro ⟨_, ⟨d, hd, hnew, rfl⟩, h⟩
      have hacc' : (acc ++ [d]).Nodup := by
        rw [List.nodup_append_comm, List.singleton_append, List.nodup_cons]
        exact ⟨hnew, hacc⟩
      obtain ⟨dims, hdims, hnodup, rfl⟩ := (ih hacc').mp h
      rw [List.append_assoc, List.singleton_append] at hnodup ⊢
      exact ⟨d :: dims, bind_eq_ok.mpr ⟨d, hd, bind_eq_ok.mpr ⟨dims, hdims, rfl⟩⟩, hnodup, rfl⟩
    · rintro ⟨dims, h, hnodup, rfl⟩
      obtain ⟨d, hd, h⟩ := bind_eq_ok.mp h
      obtain ⟨others, hothers, h⟩ := bind_eq_ok.mp h
      cases h
      have hnew : d ∉ acc := fun hmem ↦
        (List.nodup_append.mp hnodup).2.2 d hmem d List.mem_cons_self rfl
      have hsplit : acc ++ d :: others = (acc ++ [d]) ++ others := by simp
      rw [hsplit] at hnodup
      exact ⟨acc ++ [d], ⟨d, hd, hnew, rfl⟩,
        (ih (List.Nodup.of_append_left hnodup)).mpr ⟨others, hothers, hnodup, hsplit⟩⟩

/-- In another order the names stand for the same loop dimensions in another order. -/
theorem exists_loops_of_perm (hnames : names.Perm f.loopNames) {loops : List Dimension}
    (h : f.loopNames.foldlM e.addLoop [] = .ok loops) :
    ∃ loops', names.foldlM e.addLoop [] = .ok loops' ∧ loops'.Perm loops := by
  obtain ⟨dims, hdims, hnodup, rfl⟩ := (foldlM_addLoop_eq_ok List.nodup_nil).mp h
  obtain ⟨dims', hdims', hsame⟩ := exists_mapM_of_perm hnames hdims
  exact ⟨dims', (foldlM_addLoop_eq_ok List.nodup_nil).mpr
    ⟨dims', hdims', hsame.nodup_iff.mpr hnodup, rfl⟩, hsame⟩

/-! ## Plans -/

theorem compile_of_perm (hnames : names.Perm f.loopNames) {compiled : CompiledFormula}
    (h : e.compile f = .ok compiled) : ∃ loops, loops.Perm compiled.loops ∧
      e.compile { f with loopNames := names } = .ok { compiled with loops } := by
  rw [compile] at h
  obtain ⟨statement, hread, h⟩ := bind_eq_ok.mp h
  obtain ⟨expanded, hexpand, h⟩ := bind_eq_ok.mp h
  obtain ⟨loops, hloops, h⟩ := bind_eq_ok.mp h
  obtain ⟨loops', hloops', hsame⟩ := exists_loops_of_perm hnames hloops
  dsimp only at h
  split at h
  · cases h
  · rename_i hnone
    cases h
    -- The dimensions whose values are asked for are among the loop dimensions in any order.
    have hnone' : (Formula.loopDimensions (expanded.expr.filters ++ expanded.target.filters)).find?
        (fun d ↦ d ∉ loops') = none := by
      simpa only [hsame.mem_iff] using hnone
    refine ⟨loops', hsame, ?_⟩
    rw [compile, hread, ok_bind, hexpand, ok_bind, hloops', ok_bind]
    simp only [hnone']
    rfl

/-- With the loop dimensions in another order a run is prepared alike, and its combinations come in
another order. -/
theorem plan_of_perm (hnames : names.Perm f.loopNames) {p : RunPlan}
    (h : e.plan f request = .ok p) : ∃ loops combinations, combinations.Perm p.combinations ∧
      e.plan { f with loopNames := names } request =
        .ok { p with compiled := { p.compiled with loops }, combinations } := by
  rw [plan] at h
  obtain ⟨_, hoptions, h⟩ := bind_eq_ok.mp h
  obtain ⟨compiled, hcompiled, h⟩ := bind_eq_ok.mp h
  obtain ⟨session, hsession, h⟩ := bind_eq_ok.mp h
  obtain ⟨period, hperiod, h⟩ := bind_eq_ok.mp h
  obtain ⟨combinations, hcombinations, h⟩ := bind_eq_ok.mp h
  cases h
  obtain ⟨loops, hloops, hcompiled'⟩ := compile_of_perm hnames hcompiled
  obtain ⟨combinations', hcombinations', hsame⟩ := Registry.combinationsFrom_perm hloops.symm
    (PlanningError.ofRegistry_eq_ok.mp hcombinations)
  refine ⟨loops, combinations', hsame, ?_⟩
  have hlisted : PlanningError.ofRegistry (e.registry.combinations loops) = .ok combinations' :=
    PlanningError.ofRegistry_eq_ok.mpr hcombinations'
  rw [plan, hoptions, ok_bind, hcompiled', ok_bind, hsession, ok_bind, hperiod, ok_bind]
  simp only [hlisted, ok_bind]
  rfl

/-! ## Runs -/

/-- With the loop dimensions in another order a run that succeeds has the same entries in another
order: each combination has its entry from the same calculation. -/
theorem Calculates.of_perm (hnames : names.Perm f.loopNames) {p : RunPlan} {batch : BatchId}
    {s : Store} {entries : List Entry} (h : e.Calculates f request p batch s entries) :
    ∃ p' entries', e.Calculates { f with loopNames := names } request p' batch s entries' ∧
      p'.combinations.Perm p.combinations ∧ entries'.Perm entries ∧
      e.combinationEntry e.store { f with loopNames := names } p' batch =
        e.combinationEntry e.store f p batch := by
  obtain ⟨loops, combinations, hsame, hplan⟩ := plan_of_perm hnames h.plan
  obtain ⟨entries', hentries', hperm⟩ := exists_mapM_of_perm hsame h.calculated
  exact ⟨_, entries', ⟨hplan, h.free, h.writesTo, hentries', hperm.length_eq.trans_le h.room⟩,
    hsame, hperm, rfl⟩

/-- A run that succeeds also succeeds with the loop dimensions in another order. -/
theorem exists_report_of_perm (hnames : names.Perm f.loopNames) {report : RunReport}
    (h : (e.runFormula f request).1 = .ok report) :
    ∃ report', (e.runFormula { f with loopNames := names } request).1 = .ok report' := by
  obtain ⟨p, batch, s, entries, hcalculates, -⟩ := exists_calculates h
  obtain ⟨p', entries', hcalculates', -⟩ := hcalculates.of_perm hnames
  obtain ⟨ledger, -, hrun⟩ := hcalculates'.runFormula_eq
  exact ⟨_, congrArg Prod.fst hrun⟩

/-- What two runs come to that differ in the order of the combinations. Both calculate entries in
one way, from the bindings of a combination and the store before the runs. -/
structure SameButOrder (e : Engine) (f : PlanFormula) (request : RunRequest) (names : List String)
    (report report' : RunReport) : Prop where
  calculated : ∃ p p' batch,
    e.plan f request = .ok p ∧ e.plan { f with loopNames := names } request = .ok p' ∧
      p'.combinations.Perm p.combinations ∧
      p.combinations.mapM (e.combinationEntry e.store f p batch) =
        .ok (report.entries.map RunEntry.toEntry) ∧
      p'.combinations.mapM (e.combinationEntry e.store f p batch) =
        .ok (report'.entries.map RunEntry.toEntry)
  entries : (report'.entries.map RunEntry.toEntry).Perm (report.entries.map RunEntry.toEntry)
  /-- Where no key is written twice, the real runs leave the same values under all keys. -/
  values : request.preview = false → (report.entries.map (·.key)).Nodup →
    (e.runFormula { f with loopNames := names } request).2.store.values? =
      (e.runFormula f request).2.store.values?

/-- **The order of loop dimensions has no part in the values.** However the loop dimensions of a
formula are ordered, a run of it succeeds or does not. If it does, the entries are the same but for
their order, and a real run that writes no key twice leaves the same values under the same keys. -/
theorem run_order_irrelevant (e : Engine) (f : PlanFormula) (request : RunRequest)
    {names : List String} (hnames : names.Perm f.loopNames) :
    ((∃ report, (e.runFormula f request).1 = .ok report) ↔
        ∃ report, (e.runFormula { f with loopNames := names } request).1 = .ok report) ∧
      ∀ report report', (e.runFormula f request).1 = .ok report →
        (e.runFormula { f with loopNames := names } request).1 = .ok report' →
          e.SameButOrder f request names report report' := by
  have hback : f.loopNames.Perm { f with loopNames := names }.loopNames := hnames.symm
  refine ⟨⟨?_, ?_⟩, ?_⟩
  · rintro ⟨report, hreport⟩
    exact exists_report_of_perm hnames hreport
  · rintro ⟨report, hreport⟩
    exact exists_report_of_perm (f := { f with loopNames := names }) hback hreport
  · intro report report' hreport hreport'
    obtain ⟨p, batch, s, entries, hcalculates, rfl⟩ := exists_calculates hreport
    obtain ⟨p', entries', hcalculates', hcombinations, hentries, hcalculation⟩ :=
      hcalculates.of_perm hnames
    obtain ⟨ledger, -, hrun⟩ := hcalculates.runFormula_eq
    obtain ⟨ledger', -, hrun'⟩ := hcalculates'.runFormula_eq
    rw [hrun'] at hreport'
    cases hreport'
    refine ⟨⟨p, p', batch, hcalculates.plan, hcalculates'.plan, hcombinations, ?_, ?_⟩, ?_,
      fun hpreview hkeys ↦ ?_⟩
    · rw [toEntry_listed]
      exact hcalculates.calculated
    · rw [toEntry_listed, ← hcalculation]
      exact hcalculates'.calculated
    · rw [toEntry_listed, toEntry_listed]
      exact hentries
    · have hkeys' : (entries.map (·.key)).Nodup := by
        have hsame := congrArg (List.map Entry.key) (toEntry_listed f request entries)
        rw [List.map_map] at hsame
        rw [← hsame]
        exact hkeys
      rw [hrun, hrun', hpreview, if_neg Bool.false_ne_true, if_neg Bool.false_ne_true,
        Entry.values?_applyAll, Entry.values?_applyAll]
      exact (Entry.foldl_overwrite_perm hentries.symm hkeys' _).symm

private def masterListOfTwo (first second : String) : MasterList where
  values := .ofList [(1, { id := 1, code := first }), (2, { id := 2, code := second })]
  byCode := .ofList [(first, 1), (second, 2)]

/-- The small plan with two organisational units and two periods. -/
private def widePlan : Engine :=
  { smallPlan with
    registry := ⟨(smallPlan.registry.lists.insert .orgUnit (masterListOfTwo "O1" "O2")).insert
      .period (masterListOfTwo "01" "02")⟩ }

/-- A formula that gives each organisational unit its own revenue in all periods. -/
private def spread : PlanFormula where
  name := "spread"
  text := "[Period=$LOOP,OrgUnit=$LOOP].[REV] = [OrgUnit=$LOOP].[REV]"
  loopNames := ["Period", "OrgUnit"]

private def spreadEntry (seq : Nat) (period orgUnit : DimId) (cellName : String)
    (oldValue newValue : Decimal) : RunEntry where
  key := { smallCell orgUnit with period }.inBatch 1
  cellName
  oldValue
  newValue := newValue.padTo 4
  seq

/-- The report of the formula with the organisational unit as the inner loop. -/
private def spreadByPeriod : RunReport where
  id := 1
  source := .formula "spread"
  preview := false
  entries :=
    [spreadEntry 0 1 1 "REV[Period=01,OrgUnit=O1]" ten ten,
     spreadEntry 1 1 2 "REV[Period=01,OrgUnit=O2]" twenty twenty,
     spreadEntry 2 2 1 "REV[Period=02,OrgUnit=O1]" .zero ten,
     spreadEntry 3 2 2 "REV[Period=02,OrgUnit=O2]" .zero twenty]

/-- The report of the formula with the period as the inner loop. -/
private def spreadByOrgUnit : RunReport where
  id := 1
  source := .formula "spread"
  preview := false
  entries :=
    [spreadEntry 0 1 1 "REV[Period=01,OrgUnit=O1]" ten ten,
     spreadEntry 1 2 1 "REV[Period=02,OrgUnit=O1]" .zero ten,
     spreadEntry 2 1 2 "REV[Period=01,OrgUnit=O2]" twenty twenty,
     spreadEntry 3 2 2 "REV[Period=02,OrgUnit=O2]" .zero twenty]

/-- Looping over periods and organisational units in either order gives the same entries in two
orders, and the same values. -/
theorem run_order_irrelevant_spread :
    ["OrgUnit", "Period"].Perm spread.loopNames ∧
      (widePlan.runFormula spread { session := 1, period := some "01" }).1 = .ok spreadByPeriod ∧
      (widePlan.runFormula { spread with loopNames := ["OrgUnit", "Period"] }
        { session := 1, period := some "01" }).1 = .ok spreadByOrgUnit ∧
      widePlan.SameButOrder spread { session := 1, period := some "01" } ["OrgUnit", "Period"]
        spreadByPeriod spreadByOrgUnit ∧
      (spreadByPeriod.entries.map (·.key)).Nodup := by
  have hnames : ["OrgUnit", "Period"].Perm spread.loopNames := List.Perm.swap _ _ _
  have hrun : (widePlan.runFormula spread { session := 1, period := some "01" }).1 =
      .ok spreadByPeriod := by
    decide +kernel
  have hrun' : (widePlan.runFormula { spread with loopNames := ["OrgUnit", "Period"] }
      { session := 1, period := some "01" }).1 = .ok spreadByOrgUnit := by
    decide +kernel
  obtain ⟨-, hsame⟩ := run_order_irrelevant widePlan spread { session := 1, period := some "01" }
    hnames
  exact ⟨hnames, hrun, hrun', hsame _ _ hrun hrun', by decide +kernel⟩

end Engine

end PlanLedger
