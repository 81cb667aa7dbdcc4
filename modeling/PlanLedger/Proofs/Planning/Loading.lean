import PlanLedger.Proofs.Planning.Targets
import PlanLedger.Proofs.Planning.Units
import PlanLedger.Proofs.Planning.Written

/-!
# Loading and assigning

A cell that facts are loaded into is made from codes on named dimensions. A formula whose target
asks for the same codes assigns to the same cell: what is named part by part is what the filters of
the target resolve to, the session gives what is not named, and nothing is taken from the period of
a run, since loading demands one.
-/

namespace PlanLedger

open Formula (Bindings CellRef DimFilter)

/-! ## Cells from codes -/

namespace Engine

/-- The value of a part on a dimension, if it was named. -/
def CellParts.get? (p : CellParts) : Dimension → Option DimId
  | .period => p.period
  | .orgUnit => p.orgUnit
  | .service => p.service
  | .account => p.account
  | .extra name => p.extra.get? name
  | _ => none

theorem CellParts.set_eq_ok {p p' : CellParts} {d : Dimension} {v : DimId}
    (h : p.set d v = .ok p') :
    d.IsPart ∧ ∀ d', p'.get? d' = if d' = d then some v else p.get? d' := by
  cases d with
  | version => cases h
  | year => cases h
  | keyFigure => cases h
  | extra name =>
    cases h
    refine ⟨trivial, fun d' ↦ ?_⟩
    cases d' with
    | extra name' => simp [CellParts.get?, SortedMap.get?_insert]
    | _ => rfl
  | _ =>
    cases h
    exact ⟨trivial, fun d' ↦ by cases d' <;> rfl⟩

/-- The filters that ask for codes on named dimensions. -/
def codeFilters (dims : List (String × String)) : List DimFilter :=
  dims.map fun named ↦ ⟨.ofName named.1, .code named.2⟩

variable {e : Engine} {dims : List (String × String)} {p p' : CellParts}

theorem setPart_eq_ok {named : String × String} (h : e.setPart p named = .ok p') :
    ∃ m v, e.registry.list (.ofName named.1) = .ok m ∧
      e.registry.resolve (.ofName named.1) named.2 = .ok v ∧
      p.set (.ofName named.1) v = .ok p' := by
  rw [setPart] at h
  obtain ⟨d, hd, h⟩ := bind_eq_ok.mp h
  obtain ⟨v, hv, hset⟩ := bind_eq_ok.mp h
  have hd := PlanningError.ofRegistry_eq_ok.mp hd
  rw [Registry.dimension] at hd
  split_ifs at hd with hknown
  cases hd
  obtain ⟨m, hm⟩ := Registry.knows_of_contains hknown
  exact ⟨m, v, hm, PlanningError.ofRegistry_eq_ok.mp hv, hset⟩

theorem CellParts.setAll_eq_ok {pairs : List (Dimension × DimId)}
    (h : pairs.foldlM (fun p q ↦ p.set q.1 q.2) p = .ok p') : (∀ q ∈ pairs, q.1.IsPart) ∧
      ∀ d, p'.get? d = ((SortedMap.ofList pairs).get? d).or (p.get? d) := by
  induction pairs using List.reverseRecOn generalizing p' with
  | nil =>
    cases h
    exact ⟨nofun, fun d ↦ rfl⟩
  | append_singleton pairs q ih =>
    rw [List.foldlM_append] at h
    obtain ⟨p₁, hpairs, h⟩ := bind_eq_ok.mp h
    rw [List.foldlM_cons] at h
    obtain ⟨p₂, hset, h⟩ := bind_eq_ok.mp h
    cases h
    obtain ⟨hparts, hvalues⟩ := ih hpairs
    obtain ⟨hpart, hvalue⟩ := set_eq_ok hset
    refine ⟨fun q' hq' ↦ ?_, fun d ↦ ?_⟩
    · rcases List.mem_append.mp hq' with hq' | hq'
      · exact hparts q' hq'
      · exact List.mem_singleton.mp hq' ▸ hpart
    · rw [hvalue, hvalues, SortedMap.ofList_append_singleton, SortedMap.get?_insert]
      split_ifs <;> rfl

/-- What is named part by part is what the filters with the same codes ask for, in every
combination. -/
theorem setParts_eq_ok (h : dims.foldlM e.setPart p = .ok p') : ∃ pairs,
    pairs.foldlM (fun p q ↦ p.set q.1 q.2) p = .ok p' ∧
      (∀ b, Formula.resolvePairs e.registry b (codeFilters dims) = .ok pairs) ∧
      (codeFilters dims).mapM (DimFilter.expand e.registry) =
        .ok (pairs.map fun q ↦ ⟨q.1, .id q.2⟩) := by
  induction dims generalizing p with
  | nil =>
    cases h
    exact ⟨[], rfl, fun b ↦ rfl, rfl⟩
  | cons named rest ih =>
    rw [List.foldlM_cons] at h
    obtain ⟨p₁, hfirst, hrest⟩ := bind_eq_ok.mp h
    obtain ⟨m, v, hm, hv, hset⟩ := setPart_eq_ok hfirst
    obtain ⟨pairs, hpairs, hresolve, hexpand⟩ := ih hrest
    refine ⟨(.ofName named.1, v) :: pairs, ?_, fun b ↦ ?_, ?_⟩
    · rw [List.foldlM_cons, hset, ok_bind, hpairs]
    · have hpair : DimFilter.resolvePair e.registry b ⟨.ofName named.1, .code named.2⟩ =
          .ok (.ofName named.1, v) := by
        simp only [DimFilter.resolvePair, DimFilter.resolve, hv]
        rfl
      rw [codeFilters, List.map_cons, Formula.resolvePairs, List.mapM_cons, hpair, ok_bind]
      have hothers := hresolve b
      rw [Formula.resolvePairs, codeFilters] at hothers
      rw [hothers]
      rfl
    · have hfilter : DimFilter.expand e.registry ⟨.ofName named.1, .code named.2⟩ =
          .ok ⟨.ofName named.1, .id v⟩ := by
        rw [DimFilter.expand, hm, ok_bind]
        simp only [hv]
        rfl
      rw [codeFilters, List.map_cons, List.mapM_cons, hfilter, ok_bind]
      rw [codeFilters] at hexpand
      rw [hexpand]
      rfl

/-- **Loading and assigning.** A cell that is made from codes is the target with the same codes, in
every run on its session and whatever the period of the run. -/
theorem targetCell_of_cell {session : SessionId} {keyFigure : String} {c : Cell}
    (h : e.cell session keyFigure dims = .ok c) : ∃ s id pairs,
      e.store.session session = .ok s ∧ e.registry.resolve .keyFigure keyFigure = .ok id ∧
      (∀ b, Formula.resolvePairs e.registry b (codeFilters dims) = .ok pairs) ∧
      (codeFilters dims).mapM (DimFilter.expand e.registry) =
        .ok (pairs.map fun q ↦ ⟨q.1, .id q.2⟩) ∧
      (SortedMap.ofList pairs).contains .period = true ∧
      ∀ period name, targetCell ⟨session, s, period⟩ name id pairs = .ok c := by
  rw [cell] at h
  obtain ⟨s, hs, h⟩ := bind_eq_ok.mp h
  obtain ⟨p, hp, h⟩ := bind_eq_ok.mp h
  obtain ⟨pairs, hset, hresolve, hexpand⟩ := setParts_eq_ok hp
  obtain ⟨hparts, hvalues⟩ := CellParts.setAll_eq_ok hset
  split at h
  · cases h
  · cases h
  · rename_i period orgUnit hperiod horgUnit
    obtain ⟨id, hid, h⟩ := bind_eq_ok.mp h
    cases h
    have hlastPeriod : (SortedMap.ofList pairs).get? .period = some period := by
      rw [← hperiod]
      exact ((hvalues .period).trans (Option.or_none)).symm
    have hlastUnit : ((SortedMap.ofList pairs).get? .orgUnit).or s.orgUnit = some orgUnit := by
      rw [← horgUnit]
      exact (hvalues .orgUnit).symm
    refine ⟨s, id, pairs, PlanningError.ofStore_eq_ok.mp hs, PlanningError.ofRegistry_eq_ok.mp hid,
      hresolve, hexpand, Option.isSome_of_eq_some hlastPeriod, fun period' name ↦ ?_⟩
    obtain ⟨c, hc⟩ : ∃ c, targetCell ⟨session, s, period'⟩ name id pairs = .ok c :=
      exists_targetCell hparts (by rw [hlastPeriod]; rfl) (by rw [hlastUnit]; rfl)
    obtain ⟨-, hsession, hget⟩ := targetCell_eq_ok hc
    rw [hc]
    refine congrArg Except.ok (Cell.ext_get? hsession fun d ↦ ?_)
    have hfixed (d : Dimension) (hd : ¬ d.IsPart) : (SortedMap.ofList pairs).get? d = none :=
      Option.eq_none_iff_forall_ne_some.mpr fun v hv ↦
        hd (hparts (d, v) (SortedMap.mem_of_get?_ofList hv))
    rw [hget]
    cases d with
    | period =>
      rw [hlastPeriod]
      rfl
    | orgUnit => exact hlastUnit
    | service => exact (hvalues .service).symm
    | account => exact (hvalues .account).symm
    | extra name => exact (hvalues (.extra name)).symm
    | version =>
      rw [hfixed .version not_false]
      rfl
    | year =>
      rw [hfixed .year not_false]
      rfl
    | keyFigure =>
      rw [hfixed .keyFigure not_false]
      rfl

/-- A formula that assigns to a key figure with codes on named dimensions. -/
structure AssignsTo (st : Formula.Statement) (keyFigure : String) (dims : List (String × String)) :
    Prop where
  aggregate : st.target.aggregate = none
  filters : st.target.filters = codeFilters dims
  keyFigure : st.target.keyFigure = .code keyFigure

theorem loopDimensions_of_forall_ne {filters : List DimFilter}
    (h : ∀ f ∈ filters, f.value ≠ .loop) : Formula.loopDimensions filters = [] := by
  refine List.eq_nil_iff_forall_not_mem.mpr fun d hd ↦ ?_
  obtain ⟨f, hf, hloop, -⟩ := Formula.mem_loopDimensions.mp hd
  exact h f hf hloop

variable {session : SessionId} {keyFigure : String} {c : Cell} {st : Formula.Statement}

/-- What the target of a formula comes to that assigns to a cell made from codes. -/
theorem AssignsTo.of_cell (h : AssignsTo st keyFigure dims)
    (hc : e.cell session keyFigure dims = .ok c) : ∃ ref pairs s,
      st.target.expand e.registry = .ok ref ∧ Formula.loopDimensions ref.filters = [] ∧
      e.store.session session = .ok s ∧ (SortedMap.ofList pairs).contains .period = true ∧
      (∀ b, ref.resolveKeyFigure e.registry b = .ok c.keyFigure ∧
        Formula.resolvePairs e.registry b ref.filters = .ok pairs) ∧
      ∀ period name, targetCell ⟨session, s, period⟩ name c.keyFigure pairs = .ok c := by
  obtain ⟨s, id, pairs, hs, hid, hresolve, hexpand, hperiod, htarget⟩ := targetCell_of_cell hc
  obtain ⟨-, rfl⟩ := admits_targetCell (htarget none "")
  have href : st.target.expand e.registry = .ok { st.target with
      keyFigure := .id c.keyFigure, filters := pairs.map fun q ↦ ⟨q.1, .id q.2⟩ } := by
    rw [CellRef.expand, h.keyFigure, Formula.expandKeyFigure, hid, h.filters, hexpand]
    rfl
  refine ⟨_, pairs, s, href, loopDimensions_of_forall_ne ?_, hs, hperiod, fun b ↦ ?_, htarget⟩
  · intro f hf
    obtain ⟨q, -, rfl⟩ := List.mem_map.mp hf
    simp
  · obtain ⟨-, hpairs, -⟩ := CellRef.resolve_expand (b := b) href
    rw [h.filters, hresolve] at hpairs
    exact ⟨rfl, hpairs⟩

variable {f : PlanFormula} {request : RunRequest} {p : RunPlan}

theorem AssignsTo.target_of_plan (h : AssignsTo st keyFigure dims)
    (hc : e.cell session keyFigure dims = .ok c)
    (htext : Formula.Statement.ofText f.text = .ok st) (hsession : request.session = session)
    (hp : e.Plans f request p) (b : Bindings) :
    ∃ name, target e.registry p.frame b p.compiled.statement.target = .ok (c, name) := by
  obtain ⟨ref, pairs, s, href, -, hs, -, hresolve, htarget⟩ := h.of_cell hc
  obtain rfl := Except.ok.inj (href.symm.trans (hp.compiles.expand_target htext).2)
  have hframe : p.frame = ⟨session, s, p.frame.period⟩ := by
    have hsame := hp.session
    rw [hsession, hs, Except.ok.injEq] at hsame
    rw [hsame, ← hsession, ← hp.session_id]
  rw [hframe]
  exact exists_target_iff.mpr ⟨_, pairs, (hresolve b).1, (hresolve b).2, htarget _ _⟩

theorem AssignsTo.writes_of_run (h : AssignsTo st keyFigure dims)
    (hc : e.cell session keyFigure dims = .ok c) {report : RunReport}
    (htext : Formula.Statement.ofText f.text = .ok st)
    (hsession : request.session = session) (hrun : (e.runFormula f request).1 = .ok report) :
    ∃ batch stored s', e.store.ensureBatch session = .ok ((batch, stored), s') ∧
      (∀ entry ∈ report.entries, entry.key = c.inBatch batch) ∧
      (∀ key, key ≠ c.inBatch batch →
        (e.runFormula f request).2.store.values? key = e.store.values? key) ∧
      (request.preview = false → ∀ entry, report.entries.getLast? = some entry →
        ((e.runFormula f request).2.store.values? (c.inBatch batch)).map FactValues.value =
          some entry.newValue) := by
  obtain ⟨p, batch, s, entries, hcalc, rfl⟩ := exists_calculates hrun
  obtain ⟨ledger, -, hdone⟩ := hcalc.runFormula_eq
  obtain ⟨stored, hensure⟩ := hcalc.writesTo
  have hp := plan_eq_ok hcalc.plan
  have hfacts : s.values? = e.store.values? := by
    funext key
    rw [Store.values?, Store.values?, Store.find?, Store.find?, Store.facts_ensureBatch hensure]
  -- The entry of every combination has the key of the cell in the batch.
  have hkeys : ∀ entry ∈ entries, entry.key = c.inBatch batch := by
    intro entry hentry
    obtain ⟨b, -, hcalculated⟩ := exists_mem_of_mapM_eq_ok hcalc.calculated hentry
    obtain ⟨name, htarget⟩ := h.target_of_plan hc htext hsession hp b
    rw [combinationEntry, htarget, ok_bind] at hcalculated
    obtain ⟨value, -, hcalculated⟩ := bind_eq_ok.mp hcalculated
    cases hcalculated
    rfl
  have hlisted := toEntry_listed f request entries
  rw [hsession] at hensure
  refine ⟨batch, stored, s, hensure, fun entry hentry ↦ ?_, fun key hkey ↦ ?_,
    fun hreal entry hlast ↦ ?_⟩
  · exact hkeys entry.toEntry (hlisted ▸ List.mem_map_of_mem hentry)
  · rw [hdone]
    split_ifs
    · rfl
    · rw [Write.values?_applyAll_of_forall_ne, hfacts]
      intro w hw
      obtain ⟨entry, hentry, rfl⟩ := List.mem_map.mp hw
      exact fun heq ↦ hkey (heq.symm.trans (hkeys entry hentry))
  · have hlast : (entries.filter fun entry ↦ entry.key = c.inBatch batch).getLast? =
        some entry.toEntry := by
      rw [List.filter_eq_self.mpr fun entry hentry ↦ decide_eq_true (hkeys entry hentry), ← hlisted,
        List.getLast?_map]
      exact congrArg (Option.map RunEntry.toEntry) hlast
    rw [hdone, hreal, if_neg Bool.false_ne_true, Entry.values?_applyAll,
      Entry.foldl_overwrite_apply hlast]
    rfl

/-- **Loading and assigning.** Let a cell be made from codes for loading, and let a formula assign
to the same key figure with the same codes. The target of the formula compiles, and in every
combination and whatever the period of the run it is that cell. Runs of the formula write to it in
the batch of the session, and to nothing else. Read as a reference, the target has a filter that
admits the cell, and the cell is in the scope of the session with any period. -/
theorem cell_is_target (hc : e.cell session keyFigure dims = .ok c)
    (hst : AssignsTo st keyFigure dims) : ∃ ref filter s,
      st.target.expand e.registry = .ok ref ∧ Formula.loopDimensions ref.filters = [] ∧
      (∀ limit, st.expand e.catalog e.registry limit =
        (st.expr.expand e.catalog e.registry limit).map (⟨ref, ·⟩)) ∧
      e.store.session session = .ok s ∧
      (∀ period b, ∃ name, target e.registry ⟨session, s, period⟩ b ref = .ok (c, name)) ∧
      (∀ f request report, Formula.Statement.ofText f.text = .ok st → request.session = session →
        (e.runFormula f request).1 = .ok report →
        ∃ batch stored s', e.store.ensureBatch session = .ok ((batch, stored), s') ∧
          (∀ entry ∈ report.entries, entry.key = c.inBatch batch) ∧
          (∀ key, key ≠ c.inBatch batch →
            (e.runFormula f request).2.store.values? key = e.store.values? key) ∧
          (request.preview = false → ∀ entry, report.entries.getLast? = some entry →
            ((e.runFormula f request).2.store.values? (c.inBatch batch)).map FactValues.value =
              some entry.newValue)) ∧
      (∀ b, ref.resolve e.registry b = .ok (c.keyFigure, filter)) ∧ filter.admits c = true ∧
      ∀ period, (Scope.ofSession session period).contains filter c = true := by
  obtain ⟨ref, pairs, s, href, hloops, hs, hperiod, hresolve, htarget⟩ := hst.of_cell hc
  have hfirst := htarget none ""
  refine ⟨ref, .ofList pairs, s, href, hloops, fun limit ↦ ?_, hs,
    fun period b ↦
      exists_target_iff.mpr ⟨_, pairs, (hresolve b).1, (hresolve b).2, htarget period _⟩,
    fun f request report ↦ hst.writes_of_run hc, fun b ↦ ?_, (admits_targetCell hfirst).1,
    fun period ↦ ?_⟩
  · rw [Formula.Statement.expand, hst.aggregate, href]
    cases st.expr.expand e.catalog e.registry limit <;> rfl
  · rw [CellRef.resolve, (hresolve b).1, ok_bind, Formula.resolveFilters, (hresolve b).2]
    rfl
  · have hsession : c.session = session := (targetCell_eq_ok hfirst).2.1
    have hselects : Filter.selects (.ofList pairs) (.ofSession session period) c = true :=
      Filter.selects_ofSession_iff.mpr
        ⟨hsession, fun hnone ↦ absurd hperiod (by simp [SortedMap.contains, hnone]),
          Filter.admits_iff.mp (admits_targetCell hfirst).1⟩
    rw [Filter.selects, Bool.and_eq_true] at hselects
    exact hselects.1

/-- A formula that names the org unit twice, once by another name of the dimension. -/
private def assignTwice : PlanFormula :=
  { name := "twice", text := "[Period=01,org=O1,OrgUnit=O1].[REV] = 20" }

private def assignedTwice : Formula.Statement where
  target :=
    { filters := [⟨.period, .code "01"⟩, ⟨.orgUnit, .code "O1"⟩, ⟨.orgUnit, .code "O1"⟩]
      keyFigure := .code "REV" }
  expr := .number twenty

theorem cell_is_target_smallPlan : ∃ report,
    (smallPlan.runFormula assignTwice { session := 1 }).1 = .ok report ∧
      report.entries.length = 1 ∧
      ∀ entry ∈ report.entries, entry.key = (smallCell 1).inBatch 1 := by
  have hcell : smallPlan.cell 1 "REV" [("Period", "01"), ("org", "O1"), ("OrgUnit", "O1")] =
      .ok (smallCell 1) := by
    decide +kernel
  have htext : Formula.Statement.ofText assignTwice.text = .ok assignedTwice := by
    decide +kernel
  have hassigns : AssignsTo assignedTwice "REV"
      [("Period", "01"), ("org", "O1"), ("OrgUnit", "O1")] := ⟨rfl, by decide, rfl⟩
  obtain ⟨-, -, -, -, -, -, -, -, hwrites, -⟩ := cell_is_target hcell hassigns
  let report : RunReport := ⟨1, .formula "twice", false,
    [⟨⟨(smallCell 1).inBatch 1, "REV[Period=01,OrgUnit=O1,OrgUnit=O1]", ten, twenty.padTo 4⟩, 0⟩]⟩
  have hrun : (smallPlan.runFormula assignTwice { session := 1 }).1 = .ok report := by
    decide +kernel
  obtain ⟨batch, stored, s', -, hkeys, -⟩ := hwrites _ _ _ htext rfl hrun
  obtain rfl : 1 = batch := congrArg FactKey.batch (hkeys _ (List.mem_singleton_self _))
  exact ⟨report, hrun, rfl, hkeys⟩

end Engine

end PlanLedger
