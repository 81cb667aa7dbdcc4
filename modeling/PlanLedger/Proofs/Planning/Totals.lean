import PlanLedger.Proofs.Planning.Distribution

/-!
# Which totals a distribution reads

The total of a group is looked up when its turn comes, after other groups have been written. A
look-up for a group reaches the facts of the groups that extend it, and no facts of other groups; so
a group has the total of the start unless a group that extends it had its turn before. Where the
dimensions to group by are asked for in an order that puts such groups last, every total is that of
the start, and then the order of the turns is of no account.
-/

namespace PlanLedger

variable {x : WorkContext} {s : Store} {groupBy : List String} {reference : String}
  {dims : List Dimension} {rows : List Fact} {turns : List Turn}

/-! ## What the look-up for a group reaches -/

theorem resolveFilters_groupCall (r : Registry) (b : Formula.Bindings) (reference : String)
    (group : GroupKey) :
    Formula.resolveFilters r b (groupCall reference group).filters = .ok (.ofList group) := by
  have hpairs : Formula.resolvePairs r b (groupCall reference group).filters = .ok group := by
    rw [groupCall, Formula.resolvePairs, List.mapM_map]
    induction group with
    | nil => rfl
    | cons p rest ih =>
      rw [List.mapM_cons]
      dsimp only [Function.comp_def] at ih ⊢
      rw [ih]
      rfl
  rw [Formula.resolveFilters, hpairs]
  rfl

theorem get?_ofList_groupOf {c : Cell} {d : Dimension} {id : DimId}
    (h : (d, id) ∈ groupOf dims c) : (SortedMap.ofList (groupOf dims c)).get? d = some id := by
  obtain ⟨found, hfound⟩ := SortedMap.exists_get?_ofList h
  have hsame := (mem_groupOf_iff.mp (SortedMap.mem_of_get?_ofList hfound)).2
  have hid := (mem_groupOf_iff.mp h).2
  rw [hfound, ← hsame, ← hid]

/-- The look-up for the group of a cell, within the key figure of the cell, reaches cells that
extend the group, whatever else it asks for. -/
theorem extends_of_selects {c c' : Cell} {f : Filter} {scope : Scope}
    (h : Filter.selects ((f.merged (.ofList (groupOf dims c))).insert .keyFigure c.keyFigure)
      scope c' = true) : c'.Extends (groupOf dims c) := by
  intro p hp
  obtain ⟨d, id⟩ := p
  refine Filter.get?_of_selects h ?_
  by_cases hd : d = .keyFigure
  · subst hd
    rw [SortedMap.get?_insert_self]
    exact (mem_groupOf_iff.mp hp).2
  · rw [SortedMap.get?_insert_of_ne _ _ hd]
    exact SortedMap.get?_overlay_of_eq_some (get?_ofList_groupOf hp)

namespace Distributes

/-- A total is the same before and after the turns of groups that do not extend its group. -/
theorem hasTotal_storeAfter_iff (h : Distributes x s groupBy reference dims rows turns) {t : Turn}
    (ht : t ∈ turns) {others : List Turn} (hothers : others ⊆ turns)
    (hclear : ∀ t' ∈ others, ¬ t.group ⊆ t'.group) :
    t.HasTotal x reference (storeAfter x s others) ↔ t.HasTotal x reference s := by
  obtain ⟨fact, hfact⟩ := List.exists_mem_of_ne_nil _ (h.facts_ne_nil ht)
  obtain ⟨hrow, hgroup⟩ := h.mem_rows ht hfact
  have hagree : Store.AgreeOn (fun c ↦ c.Extends t.group) s (storeAfter x s others) := by
    refine Write.agreeOn_applyAll s ?_
    intro w hw hextends
    obtain ⟨t', ht', p, hp, rfl⟩ := exists_of_mem_writes hw
    have hgroup' := (h.mem_rows (hothers ht') (Turn.mem_of_mem_newValues hp)).2
    rw [← hgroup] at hextends
    refine hclear t' ht' ?_
    rw [← hgroup, ← hgroup']
    exact Cell.extends_groupOf_iff.mp hextends
  suffices hvalue : (x.lookUpContext s).value ∅ (groupCall reference t.group) =
      (x.lookUpContext (storeAfter x s others)).value ∅ (groupCall reference t.group) by
    rw [Turn.HasTotal, Turn.HasTotal, hvalue]
  refine Formula.ReferenceContext.value_congr_of_filters hagree ?_
  intro data keyFigure f upper hdata hkeyFigure hupper c hselects
  rw [resolveFilters_groupCall] at hupper
  obtain rfl := Except.ok.inj hupper
  rw [h.rows_eq hdata hkeyFigure] at hrow
  have hfactKeyFigure := Filter.keyFigure_of_selects (Store.mem_selectCurrent_iff.mp hrow).2
  rw [← hgroup, ← hfactKeyFigure] at hselects
  rw [← hgroup]
  exact extends_of_selects hselects

/-- A turn has the total of the start if no group that extends its group had its turn before. -/
theorem hasTotal_of_split (h : Distributes x s groupBy reference dims rows turns)
    {before after : List Turn} {t : Turn} (hturns : turns = before ++ t :: after)
    (hclear : ∀ t' ∈ before, ¬ t.group ⊆ t'.group) : t.HasTotal x reference s := by
  have ht : t ∈ turns := by
    rw [hturns]
    exact List.mem_append_right _ List.mem_cons_self
  have hbefore : before ⊆ turns := by
    rw [hturns]
    exact List.subset_append_left _ _
  exact (h.hasTotal_storeAfter_iff ht hbefore hclear).mp (h.totals before t after hturns)

/-- If no dimension that cells may leave open is asked for before a greater one, every turn has the
total of the start. -/
theorem hasTotal_of_openLast (h : Distributes x s groupBy reference dims rows turns)
    (hdims : OpenLast dims) : ∀ t ∈ turns, t.HasTotal x reference s := by
  intro t ht
  obtain ⟨before, after, hturns⟩ := List.append_of_mem ht
  refine h.hasTotal_of_split hturns ?_
  intro t' ht' hsubset
  have hbefore : t' ∈ turns := by
    rw [hturns]
    exact List.mem_append_left _ ht'
  have hincreasing := h.groups_increasing
  rw [hturns] at hincreasing
  have hlt := (List.pairwise_append.mp hincreasing).2.2 t' ht' t List.mem_cons_self
  -- What extends a group does not come before it.
  obtain ⟨fact, hfact⟩ := List.exists_mem_of_ne_nil _ (h.facts_ne_nil ht)
  obtain ⟨fact', hfact'⟩ := List.exists_mem_of_ne_nil _ (h.facts_ne_nil hbefore)
  rw [← (h.mem_rows ht hfact).2, ← (h.mem_rows hbefore hfact').2] at hsubset hlt
  refine compare_groupOf_ne_gt hdims (Cell.extends_groupOf_iff.mpr hsubset) ?_
  exact Std.OrientedCmp.gt_of_lt hlt

/-! ## Other orders of the turns -/

/-- **Order of turns.** If all turns have the total of the start, they have it in every other order
in which no turn comes after one whose group extends its own, and every cell comes to have the same
values. -/
theorem readsTotals_of_perm (h : Distributes x s groupBy reference dims rows turns)
    (hstart : ∀ t ∈ turns, t.HasTotal x reference s) {turns' : List Turn}
    (hperm : turns'.Perm turns) (horder : turns'.Pairwise fun t t' ↦ ¬ t'.group ⊆ t.group) :
    ReadsTotals x reference s turns' ∧
      (storeAfter x s turns).ReadsAlike (storeAfter x s turns') := by
  constructor
  · intro before t after hturns'
    subst hturns'
    have ht : t ∈ turns := hperm.subset (List.mem_append_right _ List.mem_cons_self)
    have hbefore : before ⊆ turns := fun t' ht' ↦ hperm.subset (List.mem_append_left _ ht')
    refine (h.hasTotal_storeAfter_iff ht hbefore ?_).mpr (hstart t ht)
    intro t' ht'
    exact (List.pairwise_append.mp horder).2.2 t' ht' t List.mem_cons_self
  · exact Write.readsAlike_applyAll_of_perm h.truthful h.onDifferentCells
      (hperm.symm.flatMap_right _)

end Distributes

/-! ## Distributions in engines -/

namespace Engine

variable {e : Engine} {id : SessionId} {outcome : FunctionOutcome}

/-- **Totals of the start.** A distribution that succeeds takes turns, and afterwards the facts have
the values that follow from the totals of their turns. A turn has the total of the start unless one
whose group extends its own came before. If no dimension that cells may leave open is asked for
before a greater one, all turns have the total of the start. If all have it, the turns come to the
same in every order in which none comes after one whose group extends its own. -/
theorem distribute_totals_of_start
    (h : (e.runFunction (.distribute groupBy reference) id).1 = .ok outcome) :
    ∃ x dims rows turns, e.DistributedBy id groupBy reference outcome x dims rows turns ∧
      (∀ t ∈ turns, ∀ p ∈ t.newValues e.options.scale,
        (e.runFunction (.distribute groupBy reference) id).2.store.currentValues? p.1.cell =
          some { p.1.values with value := p.2 }) ∧
      (∀ before t after, turns = before ++ t :: after → (∀ t' ∈ before, ¬ t.group ⊆ t'.group) →
        t.HasTotal x reference e.store) ∧
      (OpenLast dims → ∀ t ∈ turns, t.HasTotal x reference e.store) ∧
      ((∀ t ∈ turns, t.HasTotal x reference e.store) → ∀ turns' : List Turn,
        turns'.Perm turns → (turns'.Pairwise fun t t' ↦ ¬ t'.group ⊆ t.group) →
          ReadsTotals x reference e.store turns' ∧
            (storeAfter x e.store turns).ReadsAlike (storeAfter x e.store turns')) := by
  obtain ⟨x, dims, rows, turns, hdist⟩ := exists_distributedBy h
  have hdistributes := hdist.distributes
  refine ⟨x, dims, rows, turns, hdist, ?_, ?_, hdistributes.hasTotal_of_openLast, ?_⟩
  · intro t ht p hp
    rw [← hdist.scale_eq] at hp
    rw [hdist.store]
    exact hdistributes.currentValues?_of_mem ht hp
  · intro before t after hturns hclear
    exact hdistributes.hasTotal_of_split hturns hclear
  · intro hstart turns' hperm horder
    exact hdistributes.readsTotals_of_perm hstart hperm horder

/-! ### Groups that overlap -/

private def openCell : Cell := { smallCell 1 with account := some 1 }

/-- A cell whose group extends that of the open cell. -/
private def serviceCell : Cell := { openCell with service := some 1 }

private def five : Decimal := { Decimal.zero with mantissa := 5, mantissa_lt := by decide }

/-- A plan in which a total takes in the facts that are distributed: ten for a service on an
account and five on the account alone, and ten more in a second session. -/
def overlappingPlan : Engine :=
  { smallPlan with
    store := List.foldl Store.after ∅
      [.createSession { version := 1, year := 1 }, .createSession { version := 2, year := 1 },
        .createBatch { session := 1, action := .delta },
        .createBatch { session := 2, action := .delta },
        .put (serviceCell.inBatch 1) { value := ten }, .put (openCell.inBatch 1) { value := five },
        .put ({ serviceCell with session := 2, version := 2 }.inBatch 2) { value := ten }]
    registry := ⟨(smallPlan.registry.lists.insert .service (masterListWith ["S1"])).insert .account
      (masterListWith ["A1"])⟩
    catalog := { references := .ofList [("Total", { name := "Total", keyFigure := "REV" })] } }

theorem reachable_overlappingPlan : overlappingPlan.Reachable :=
  .new (Store.Reachable.empty.calls _) _ _ _ _

/-- The rows of the plan, the one that leaves the service open first. -/
private def overlappingRows : List Fact := overlappingPlan.store.currentOf 1 ∅ (.ofSession 1)

/-- The turn of the account alone, if it has the total of the start. -/
private def openTurn : Turn where
  group := [(.account, 1)]
  facts := overlappingRows.take 1
  total := { Decimal.zero with mantissa := 25, mantissa_lt := by decide }

/-- By accounts and services, every total of the plan with overlapping groups is that of the
start. -/
theorem distribute_totals_of_start_overlappingPlan :
    ∃ outcome x dims rows turns,
      (overlappingPlan.runFunction (.distribute ["Account", "Service"] "Total") 1).1 =
        .ok outcome ∧
      overlappingPlan.DistributedBy 1 ["Account", "Service"] "Total" outcome x dims rows turns ∧
      dims = [.account, .service] ∧ turns ≠ [] ∧
      ∀ t ∈ turns, t.HasTotal x "Total" overlappingPlan.store := by
  obtain ⟨outcome, hrun⟩ : ∃ outcome, (overlappingPlan.runFunction
    (.distribute ["Account", "Service"] "Total") 1).1 = .ok outcome :=
      exists_eq_ok (by decide +kernel)
  obtain ⟨x, dims, rows, turns, hdist, -, -, hopen, -⟩ := distribute_totals_of_start hrun
  obtain rfl : dims = [.account, .service] := hdist.dims_eq (by decide +kernel)
  obtain rfl : rows = overlappingRows := hdist.rows_eq rfl (by decide +kernel)
  have hne : overlappingRows ≠ [] := by decide +kernel
  exact ⟨outcome, x, _, _, turns, hrun, hdist, rfl, hdist.distributes.turns_ne_nil hne,
    hopen (by unfold OpenLast; decide)⟩

/-- By services and accounts, the total of the account is read after the service has been written,
and the fact on the account does not get the value that the total of the start gives it. It gets
that value if the accounts are asked for first. -/
theorem distribute_reads_own_writes :
    overlappingPlan.Reachable ∧
      ∃ outcome x dims rows turns t p,
        (overlappingPlan.runFunction (.distribute ["Service", "Account"] "Total") 1).1 =
          .ok outcome ∧
        overlappingPlan.DistributedBy 1 ["Service", "Account"] "Total" outcome x dims rows turns ∧
        t ∈ turns ∧ (openTurn.group, openTurn.facts) = (t.group, t.facts) ∧
        openTurn.HasTotal x "Total" overlappingPlan.store ∧ p ∈ openTurn.newValues x.scale ∧
        (overlappingPlan.runFunction (.distribute ["Service", "Account"] "Total")
          1).2.store.currentValues? p.1.cell ≠ some { p.1.values with value := p.2 } ∧
        (overlappingPlan.runFunction (.distribute ["Account", "Service"] "Total")
          1).2.store.currentValues? p.1.cell = some { p.1.values with value := p.2 } := by
  obtain ⟨outcome, hrun⟩ : ∃ outcome, (overlappingPlan.runFunction
    (.distribute ["Service", "Account"] "Total") 1).1 = .ok outcome :=
      exists_eq_ok (by decide +kernel)
  obtain ⟨x, dims, rows, turns, hdist⟩ := exists_distributedBy hrun
  obtain rfl : dims = [.service, .account] := hdist.dims_eq (by decide +kernel)
  obtain rfl : rows = overlappingRows := hdist.rows_eq rfl (by decide +kernel)
  have hgroup : (openTurn.group, openTurn.facts) ∈
      (groupFacts [.service, .account] overlappingRows).toList := by
    decide +kernel
  rw [← hdist.distributes.grouped] at hgroup
  obtain ⟨t, ht, hsame⟩ := List.mem_map.mp hgroup
  refine ⟨reachable_overlappingPlan, outcome, x, _, _, turns, t,
    (⟨2, openCell.inBatch 1, { value := five }⟩, ⟨false, 250000, 4, by decide, by decide⟩), hrun,
    hdist, ht, hsame.symm, ?_, ?_, ?_, ?_⟩
  · rw [Turn.HasTotal, hdist.lookUpContext_eq]
    decide +kernel
  · rw [hdist.scale_eq]
    decide +kernel
  · decide +kernel
  · decide +kernel

end Engine

end PlanLedger
