import Mathlib.Data.List.Forall2
import PlanLedger.Proofs.Dimension.Numbering
import PlanLedger.Proofs.Planning.Targets
import PlanLedger.Proofs.Planning.Units
import PlanLedger.Proofs.SortedMap.Comparison

/-!
# Reading back what was assigned

A formula writes to one cell, which has nothing on the dimensions that neither its target nor the
run gives a value for. The target read as a reference finds that cell and any other one of the
session that has all of this and something more, and takes the first of them in the order of cells.
A cell that leaves a service or an account open comes before those that do not, so more of these
does no harm. With the extra dimensions this is different: they are compared name by name, and a
cell with a further one comes first if its name does. Then the reference does not read what was
assigned. The same goes for cells of an earlier version or year than that of the session, which
facts can be loaded into.
-/

namespace PlanLedger

open Formula (Bindings CellRef DimFilter)

/-! ## Cells with further values -/

/-- A cell of the same session that has what another one has on its dimensions, and maybe more.
Version and year are left out, as a reference need not ask for those of the session. -/
structure Cell.Refines (c' c : Cell) : Prop where
  session : c'.session = c.session
  get? : ∀ d, d ≠ .version → d ≠ .year → ∀ v, c.get? d = some v → c'.get? d = some v

/-- How a cell that refines another one comes before it: it is of an earlier version or year, or it
has a further extra dimension, the name of which comes before one of those of the other cell. -/
def Cell.Shadows (c' c : Cell) : Prop :=
  c'.version < c.version ∨ c'.version = c.version ∧
    (c'.year < c.year ∨ c'.year = c.year ∧ c'.service = c.service ∧ c'.account = c.account ∧
      ∃ further ∈ c'.extra.keys, further ∉ c.extra.keys ∧
        ∃ name ∈ c.extra.keys, compare further name = .lt)

instance (c' c : Cell) : Decidable (c'.Shadows c) :=
  inferInstanceAs (Decidable (c'.version < c.version ∨ _ ∧ (_ ∨ _)))

private theorem compare_ne_lt_of_filled {a b : Option DimId} (h : ∀ v, b = some v → a = some v) :
    compare a b ≠ .lt := by
  cases b with
  | none => cases a <;> exact nofun
  | some v =>
    rw [h v rfl, Std.ReflOrd.compare_self]
    exact nofun

/-- Among the cells that refine a cell, those that shadow it are the ones that come before it. -/
theorem Cell.Refines.compare_eq_lt_iff {c' c : Cell} (h : c'.Refines c) :
    compare c' c = .lt ↔ c'.Shadows c := by
  have hperiod : c'.period = c.period := Option.some.inj (h.get? .period nofun nofun _ rfl)
  have horgUnit : c'.orgUnit = c.orgUnit := Option.some.inj (h.get? .orgUnit nofun nofun _ rfl)
  have hkeyFigure : c'.keyFigure = c.keyFigure :=
    Option.some.inj (h.get? .keyFigure nofun nofun _ rfl)
  have hservice : compare c'.service c.service ≠ .lt :=
    compare_ne_lt_of_filled (h.get? .service nofun nofun)
  have haccount : compare c'.account c.account ≠ .lt :=
    compare_ne_lt_of_filled (h.get? .account nofun nofun)
  rw [Shadows, ← SortedMap.compare_eq_lt_iff_of_extends fun name ↦ h.get? (.extra name) nofun nofun]
  show compareLex (compareLex compareFrame compareMiddle) (compareBoth keyFigure extra) c' c = .lt ↔
    c'.version < c.version ∨ c'.version = c.version ∧
      (c'.year < c.year ∨ c'.year = c.year ∧ c'.service = c.service ∧ c'.account = c.account ∧
        compare c'.extra c.extra = .lt)
  simp only [compareLex, compareFrame, compareMiddle, compareBoth, compareOn, h.session, hperiod,
    horgUnit, hkeyFigure, Std.ReflOrd.compare_self, Ordering.then_eq_lt, Ordering.then_eq_eq,
    Std.compare_eq_iff_eq, Nat.compare_eq_lt, hservice, haccount, and_false, or_false]
  grind

/-! ## What a target finds -/

section

variable {x : RunFrame} {name : String} {keyFigure : DimId} {pairs : List (Dimension × DimId)}
  {c c' : Cell}

theorem selects_targetCell (h : targetCell x name keyFigure pairs = .ok c) :
    Filter.selects ((SortedMap.ofList pairs).insert .keyFigure keyFigure) x.scope c = true := by
  obtain ⟨-, hsession, hget⟩ := targetCell_eq_ok h
  obtain ⟨hadmits, hkeyFigure⟩ := admits_targetCell h
  refine Filter.selects_ofSession_iff.mpr ⟨hsession, fun hnone v hv ↦ ?_, fun d v hv ↦ ?_⟩
  · rw [SortedMap.get?_insert, if_neg nofun] at hnone
    have hperiod := hget .period
    rw [hnone, Option.none_or] at hperiod
    exact Option.some.inj (hperiod.trans hv)
  · rw [SortedMap.get?_insert] at hv
    split_ifs at hv with hd
    · rw [hd, ← hv]
      exact congrArg some hkeyFigure
    · exact Filter.admits_iff.mp hadmits d v hv

/-- If a target names the organisational unit, it finds only cells that refine the one that it
assigns. -/
theorem refines_targetCell (h : targetCell x name keyFigure pairs = .ok c)
    (hnamed : ((SortedMap.ofList pairs).get? .orgUnit).isSome = true)
    (hfound :
      Filter.selects ((SortedMap.ofList pairs).insert .keyFigure keyFigure) x.scope c' = true) :
    c'.Refines c := by
  obtain ⟨hpairs, hsession, hget⟩ := targetCell_eq_ok h
  obtain ⟨hsession', hperiod, hasked⟩ := Filter.selects_ofSession_iff.mp hfound
  refine ⟨hsession'.trans hsession.symm, fun d hversion hyear v hv ↦ ?_⟩
  by_cases hkeyFigure : d = .keyFigure
  · rw [← hv, hkeyFigure]
    exact congrArg some
      ((Filter.keyFigure_of_selects hfound).trans (admits_targetCell h).2.symm)
  rw [hget] at hv
  cases hlast : (SortedMap.ofList pairs).get? d with
  | some v' =>
    rw [hlast, Option.some_or] at hv
    refine hasked d v ?_
    rw [SortedMap.get?_insert, if_neg hkeyFigure, hlast, hv]
  | none =>
    rw [hlast, Option.none_or] at hv
    cases d with
    | period =>
      refine congrArg some (hperiod ?_ v hv)
      rw [SortedMap.get?_insert, if_neg hkeyFigure, hlast]
    | orgUnit =>
      rw [hlast] at hnamed
      cases hnamed
    | version => exact absurd rfl hversion
    | year => exact absurd rfl hyear
    | keyFigure => exact absurd rfl hkeyFigure
    | _ => cases hv

end

section

variable {r : Registry} {x : RunFrame} {b : Bindings} {ref : CellRef} {c : Cell} {name : String}

theorem isSome_get?_of_named {filters : List DimFilter} {pairs : List (Dimension × DimId)}
    (h : Formula.resolvePairs r b filters = .ok pairs) {f : DimFilter} (hf : f ∈ filters) :
    ((SortedMap.ofList pairs).get? f.dimension).isSome = true := by
  obtain ⟨pair, hpair, hresolve⟩ := exists_eq_ok_of_mapM_eq_ok h hf
  obtain ⟨v, -, hresolve⟩ := bind_eq_ok.mp hresolve
  cases hresolve
  exact Option.isSome_iff_exists.mpr (SortedMap.exists_get?_ofList hpair)

/-- What a reference asks for that a run assigns to: what is found has the assigned cell among it,
and the organisational unit being named, all other cells of it refine that one. -/
theorem exists_resolve_of_target (h : target r x b ref = .ok (c, name))
    (hnamed : ∃ f ∈ ref.filters, f.dimension = .orgUnit) : ∃ keyFigure filter,
      ref.resolve r b = .ok (keyFigure, filter) ∧
      Filter.selects (filter.insert .keyFigure keyFigure) x.scope c = true ∧
      ∀ c', Filter.selects (filter.insert .keyFigure keyFigure) x.scope c' = true →
        c'.Refines c := by
  obtain ⟨keyFigure, pairs, hkeyFigure, hpairs, hcell⟩ := exists_target_iff.mp ⟨name, h⟩
  obtain ⟨f, hf, hdimension⟩ := hnamed
  have hsome := isSome_get?_of_named hpairs hf
  rw [hdimension] at hsome
  refine ⟨keyFigure, .ofList pairs, ?_, selects_targetCell hcell,
    fun c' ↦ refines_targetCell hcell hsome⟩
  rw [CellRef.resolve, hkeyFigure, ok_bind, Formula.resolveFilters, hpairs]
  rfl

end

/-! ## The first of what is found -/

/-- Where there are facts to be read, the value of one is read that comes before all others. -/
theorem Store.exists_first_currentOf {s : Store} {keyFigure : DimId} {f : Filter} {scope : Scope}
    {fact : Fact} (h : fact ∈ s.currentOf keyFigure f scope) :
    ∃ first ∈ s.currentOf keyFigure f scope, s.get keyFigure f scope = first.value ∧
      ∀ other ∈ s.currentOf keyFigure f scope,
        first = other ∨ compare first.cell other.cell = .lt := by
  have hincreasing : (s.currentOf keyFigure f scope).Pairwise fun a b ↦
      compare a.cell b.cell = .lt := selectCurrent_increasing s _ scope
  rw [get]
  cases hfound : s.currentOf keyFigure f scope with
  | nil =>
    rw [hfound] at h
    exact absurd h List.not_mem_nil
  | cons first rest =>
    rw [hfound] at hincreasing
    refine ⟨first, List.mem_cons_self, rfl, fun other hother ↦ ?_⟩
    rcases List.mem_cons.mp hother with rfl | hother
    · exact .inl rfl
    · exact .inr ((List.pairwise_cons.mp hincreasing).1 other hother)

/-- What is read of facts that all refine the cell of one of them: that one, or if there are some
that shadow it, one of these. -/
theorem Store.get_of_refines {s : Store} {keyFigure : DimId} {f : Filter} {scope : Scope}
    {fact : Fact} (h : fact ∈ s.currentOf keyFigure f scope)
    (hrefines : ∀ other ∈ s.currentOf keyFigure f scope, other.cell.Refines fact.cell) :
    ((∀ other ∈ s.currentOf keyFigure f scope, ¬ other.cell.Shadows fact.cell) →
        s.get keyFigure f scope = fact.value) ∧
      ((∃ other ∈ s.currentOf keyFigure f scope, other.cell.Shadows fact.cell) →
        ∃ first ∈ s.currentOf keyFigure f scope, first.cell.Shadows fact.cell ∧
          s.get keyFigure f scope = first.value) := by
  obtain ⟨first, hfirst, hget, hbefore⟩ := exists_first_currentOf h
  rw [hget]
  constructor
  · intro hnone
    rcases hbefore fact h with rfl | hlt
    · rfl
    · exact absurd ((hrefines first hfirst).compare_eq_lt_iff.mp hlt) (hnone first hfirst)
  · rintro ⟨other, hother, hshadows⟩
    refine ⟨first, hfirst, ?_, rfl⟩
    rcases hbefore other hother with rfl | hlt
    · exact hshadows
    · have hlt' := (hrefines other hother).compare_eq_lt_iff.mpr hshadows
      exact (hrefines first hfirst).compare_eq_lt_iff.mp (Std.TransCmp.lt_trans hlt hlt')

/-! ## Runs -/

namespace Engine

variable {e : Engine} {f : PlanFormula} {request : RunRequest} {p : RunPlan} {batch : BatchId}
  {s : Store} {entries : List Entry}

/-- The entry of a combination lies in the batch of the run, on the target of the combination. -/
theorem Calculates.target_of_mem_zip (h : e.Calculates f request p batch s entries) {b : Bindings}
    {entry : Entry} (hentry : (b, entry) ∈ p.combinations.zip entries) : ∃ name,
      target e.registry p.frame b p.compiled.statement.target = .ok (entry.key.cell, name) := by
  have hcalculated := (List.forall₂_iff_zip.mp (mapM_eq_ok.mp h.calculated)).2 hentry
  obtain ⟨⟨c, name⟩, htarget, hcalculated⟩ := bind_eq_ok.mp hcalculated
  obtain ⟨value, -, hcalculated⟩ := bind_eq_ok.mp hcalculated
  cases hcalculated
  exact ⟨name, htarget⟩

/-- After a run the cell of an entry that is the last one under its key has the new value. -/
theorem Calculates.exists_isNewest (h : e.Calculates f request p batch s entries)
    (hs : e.store.WellFormed) {entry : Entry}
    (hlast : (entries.filter fun other ↦ other.key = entry.key).getLast? = some entry) :
    ∃ fact, (Write.applyAll s (entries.map Entry.toWrite)).IsNewest fact ∧
      fact.cell = entry.key.cell ∧ fact.value = entry.newValue := by
  have hentry : entry ∈ entries := List.mem_of_mem_filter (List.mem_of_getLast? hlast)
  have hvalues := h.currentValues?_applyAll hs hentry
  rw [Entry.values?_applyAll, Entry.foldl_overwrite_apply hlast, Store.currentValues?,
    Option.map_eq_some_iff] at hvalues
  obtain ⟨fact, hfact, hvalues⟩ := hvalues
  obtain ⟨hnewest, hcell⟩ := Store.currentFact?_eq_some_iff.mp hfact
  exact ⟨fact, hnewest, hcell, congrArg FactValues.value hvalues⟩

/-- **Reading back.** Let a formula that names the organisational unit in its target be run on a
reachable engine, and let the entry of a combination be the last one under its key. Read as a
reference for the combination and in the scope of the run, the target has the new value of the entry
afterwards, unless it finds current facts on cells that shadow the one that was written; then it has
the value of such a fact. -/
theorem runFormula_read_back (h : e.Reachable) (hreal : request.preview = false)
    {report : RunReport} (hrun : (e.runFormula f request).1 = .ok report)
    {st : Formula.Statement} (htext : Formula.Statement.ofText f.text = .ok st)
    (hnamed : ∃ g ∈ st.target.filters, g.dimension = .orgUnit) (hplan : e.plan f request = .ok p)
    {b : Bindings} {entry : RunEntry} (hentry : (b, entry) ∈ p.combinations.zip report.entries)
    (hlast : report.lastUnder? entry.key = some entry) : ∃ keyFigure filter found,
      st.target.resolve e.registry b = .ok (keyFigure, filter) ∧
      (e.runFormula f request).2.store.currentOf keyFigure filter p.frame.scope = found ∧
      ((∀ fact ∈ found, ¬ fact.cell.Shadows entry.key.cell) →
        st.target.evaluate ⟨(e.runFormula f request).2.store, e.registry, p.frame.scope, b⟩ =
          .ok (.number entry.newValue)) ∧
      ((∃ fact ∈ found, fact.cell.Shadows entry.key.cell) →
        ∃ fact ∈ found, fact.cell.Shadows entry.key.cell ∧
          st.target.evaluate ⟨(e.runFormula f request).2.store, e.registry, p.frame.scope, b⟩ =
            .ok (.number fact.value)) := by
  obtain ⟨p', batch, s, entries, hcalc, rfl⟩ := exists_calculates hrun
  obtain rfl : p = p' := Except.ok.inj (hplan.symm.trans hcalc.plan)
  obtain ⟨ledger, -, hdone⟩ := hcalc.runFormula_eq
  rw [hreal, if_neg Bool.false_ne_true] at hdone
  have hlisted := toEntry_listed f request entries
  have hmem : (b, entry.toEntry) ∈ p.combinations.zip entries := by
    rw [← hlisted, List.zip_map_right]
    exact List.mem_map_of_mem hentry
  -- The target assigns the cell of the entry, and it was the last to do so.
  obtain ⟨name, htarget⟩ := hcalc.target_of_mem_zip hmem
  obtain ⟨haggregate, hexpand⟩ := (plan_eq_ok hplan).compiles.expand_target htext
  rw [target_expand hexpand] at htarget
  obtain ⟨keyFigure, filter, hresolve, hselects, hrefines⟩ :=
    exists_resolve_of_target htarget hnamed
  obtain ⟨last, hlast', hunder⟩ := exists_lastUnder? hlisted (List.of_mem_zip hentry).2
  obtain rfl : entry = last := Option.some_inj.mp (hlast.symm.trans hlast')
  obtain ⟨fact, hnewest, hcell, hvalue⟩ := hcalc.exists_isNewest h.wellFormed hunder
  rw [← hcell] at hselects hrefines
  have hget := Store.get_of_refines (Store.mem_selectCurrent_iff.mpr ⟨hnewest, hselects⟩)
    fun other hother ↦ hrefines _ (Store.mem_selectCurrent_iff.mp hother).2
  have hevaluate (store : Store) :
      st.target.evaluate ⟨store, e.registry, p.frame.scope, b⟩ =
        .ok (.number (store.get keyFigure filter p.frame.scope)) := by
    rw [CellRef.evaluate, hresolve, ok_bind, haggregate]
    rfl
  rw [hcell, hvalue] at hget
  refine ⟨keyFigure, filter, _, hresolve, rfl, ?_⟩
  rw [hdone, hevaluate]
  refine ⟨fun hnone ↦ ?_, fun hsome ↦ ?_⟩
  · rw [hget.1 hnone]
  · obtain ⟨first, hfirst, hshadows, hvalue⟩ := hget.2 hsome
    exact ⟨first, hfirst, hshadows, by rw [hvalue]⟩

/-- The registry of a market, with one value on each dimension that is needed and one on each of two
extra dimensions. -/
private def marketRegistry : Registry :=
  Registry.initial.afterAll
    [.add .version { id := 1, code := "P0" }, .add .year { id := 1, code := "2024" },
      .add .period { id := 1, code := "01" }, .add .orgUnit { id := 1, code := "O1" },
      .add .keyFigure { id := 1, code := "REV" },
      .add (.extra "Channel") { id := 7, code := "WEB" },
      .add (.extra "Region") { id := 9, code := "EU" }]

/-- A cell of the market with values on some extra dimensions. -/
private def marketCell (extra : List (String × DimId)) : Cell :=
  { smallCell 1 with extra := .ofList extra }

/-- A plan with one fact, the cell of which has a value on both extra dimensions. -/
private def marketPlan : Engine :=
  (Engine.after { registry := marketRegistry } (.createSession "" "P0" "2024" none)).after
    (.loadFact (marketCell [("Channel", 7), ("Region", 9)]) { value := ten })

private theorem reachable_marketPlan : marketPlan.Reachable :=
  ((Reachable.new .empty _ _ _ _).call _).call _

/-- A formula that assigns to the cell of a value on one extra dimension. -/
private def assignExtra (name code : String) : PlanFormula :=
  { name, text := "[OrgUnit=O1," ++ name ++ "=" ++ code ++ "].[REV] = 20" }

private def assignedExtra (name code : String) : Formula.Statement where
  target :=
    { filters := [⟨.orgUnit, .code "O1"⟩, ⟨.extra name, .code code⟩]
      keyFigure := .code "REV" }
  expr := .number twenty

/-- The request to run a formula on the plan. -/
private def marketRequest : RunRequest := { session := 1, period := some "01" }

private def marketFrame : RunFrame := ⟨1, { version := 1, year := 1 }, some 1⟩

private def marketEntry (name code : String) (id : DimId) : RunEntry where
  key := (marketCell [(name, id)]).inBatch 1
  cellName := "REV[OrgUnit=O1," ++ name ++ "=" ++ code ++ "]"
  oldValue := .zero
  newValue := twenty.padTo 4
  seq := 0

private def marketReport (name code : String) (id : DimId) : RunReport :=
  ⟨1, .formula name, false, [marketEntry name code id]⟩

private theorem exists_plan_of_map {combinations : List Bindings} {frame : RunFrame}
    (h : (e.plan f request).map (fun p ↦ (p.combinations, p.frame)) = .ok (combinations, frame)) :
    ∃ p, e.plan f request = .ok p ∧ p.combinations = combinations ∧ p.frame = frame := by
  obtain ⟨p, hplan, hsame⟩ := map_eq_ok.mp h
  obtain ⟨hcombinations, hframe⟩ := Prod.mk.inj hsame
  exact ⟨p, hplan, hcombinations, hframe⟩

/-- What is assigned to a channel is read back, though the target finds the fact of the channel and
a region as well: the name of the region comes after that of the channel. -/
theorem runFormula_read_back_channel :
    (marketPlan.runFormula (assignExtra "Channel" "WEB") marketRequest).1 =
        .ok (marketReport "Channel" "WEB" 7) ∧
      (assignedExtra "Channel" "WEB").target.evaluate
        ⟨(marketPlan.runFormula (assignExtra "Channel" "WEB") marketRequest).2.store,
          marketRegistry, marketFrame.scope, ∅⟩ = .ok (.number (twenty.padTo 4)) := by
  have hrun : (marketPlan.runFormula (assignExtra "Channel" "WEB") marketRequest).1 =
      .ok (marketReport "Channel" "WEB" 7) := by
    decide +kernel
  have htext : Formula.Statement.ofText (assignExtra "Channel" "WEB").text =
      .ok (assignedExtra "Channel" "WEB") := by
    decide +kernel
  obtain ⟨p, hplan, hcombinations, hframe⟩ : ∃ p,
      marketPlan.plan (assignExtra "Channel" "WEB") marketRequest = .ok p ∧
        p.combinations = [∅] ∧ p.frame = marketFrame :=
    exists_plan_of_map (by decide +kernel)
  have hentry : (∅, marketEntry "Channel" "WEB" 7) ∈
      p.combinations.zip (marketReport "Channel" "WEB" 7).entries := by
    rw [hcombinations]
    exact List.mem_singleton_self _
  obtain ⟨keyFigure, filter, found, hresolve, rfl, hread, -⟩ := runFormula_read_back
    reachable_marketPlan rfl hrun htext (by decide) hplan hentry (by decide +kernel)
  obtain ⟨rfl, rfl⟩ : 1 = keyFigure ∧ .ofList [(.orgUnit, 1), (.extra "Channel", 7)] = filter :=
    Prod.mk.inj (Except.ok.inj (Eq.trans (by decide +kernel) hresolve))
  rw [hframe] at hread
  exact ⟨hrun, hread (by decide +kernel)⟩

/-- What is assigned to a region is not read back: the target finds the fact of a channel and the
region as well, which comes first. -/
theorem runFormula_reads_other : marketPlan.Reachable ∧
    (marketPlan.runFormula (assignExtra "Region" "EU") marketRequest).1 =
      .ok (marketReport "Region" "EU" 9) ∧
    Formula.Statement.ofText (assignExtra "Region" "EU").text = .ok (assignedExtra "Region" "EU") ∧
    (∃ g ∈ (assignedExtra "Region" "EU").target.filters, g.dimension = .orgUnit) ∧
    (marketReport "Region" "EU" 9).lastUnder? (marketEntry "Region" "EU" 9).key =
      some (marketEntry "Region" "EU" 9) ∧
    ∃ p, marketPlan.plan (assignExtra "Region" "EU") marketRequest = .ok p ∧
      (∅, marketEntry "Region" "EU" 9) ∈
        p.combinations.zip (marketReport "Region" "EU" 9).entries ∧
      (assignedExtra "Region" "EU").target.evaluate
        ⟨(marketPlan.runFormula (assignExtra "Region" "EU") marketRequest).2.store,
          marketPlan.registry, p.frame.scope, ∅⟩ = .ok (.number ten) ∧
      ten ≠ (marketEntry "Region" "EU" 9).newValue := by
  obtain ⟨p, hplan, hcombinations, hframe⟩ : ∃ p,
      marketPlan.plan (assignExtra "Region" "EU") marketRequest = .ok p ∧
        p.combinations = [∅] ∧ p.frame = marketFrame :=
    exists_plan_of_map (by decide +kernel)
  refine ⟨reachable_marketPlan, by decide +kernel, by decide +kernel, by decide, by decide +kernel,
    p, hplan, ?_, ?_, by decide +kernel⟩
  · rw [hcombinations]
    exact List.mem_singleton_self _
  · rw [hframe]
    decide +kernel

end Engine

end PlanLedger
