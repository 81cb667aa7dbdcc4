import PlanLedger.Proofs.Fact.Aggregate
import PlanLedger.Proofs.Planning.Amending
import PlanLedger.Proofs.Planning.Reachable

/-!
# Setting a slice to zero

Setting a slice of a session to zero restates its current facts that are not zero already. Older
facts of the same cells stay in the store with the values that they have, but nobody reads them:
what a reader finds with a filter that asks for everything the slice asks for is a current fact of
the slice, whatever else the filter asks for. So every value that is looked up there is zero, and so
is every aggregate, as an aggregate of zeros.
-/

namespace PlanLedger

/-! ## Zero facts -/

def Fact.isCleared (fact : Fact) : Bool := fact.values.value.isZero && fact.values.refValue.isZero

/-- What becomes of a fact that is set to zero. -/
def resetFate (fact : Fact) : Fate :=
  if fact.isCleared then .left
  else .restated { fact.values with value := .zero, refValue := .zero }

theorem isCleared_apply_resetFate (fact : Fact) :
    ((resetFate fact).apply fact).isCleared = true := by
  rw [resetFate]
  split_ifs with h
  · exact h
  · rfl

theorem resetFact_eq (x : WorkContext) (fact : Fact) : resetFact x fact =
    if fact.isCleared then pure {}
    else x.change fact fun values ↦ { values with value := .zero, refValue := .zero } := rfl

def resetting (x : WorkContext) : Amendment x where
  fate := resetFate
  step := resetFact x
  write fact values := x.changeWrite fact
    (fun old ↦ { old with value := values.value, refValue := .zero }) values.value fun _ ↦ rfl
  entry_eq _ _ := rfl
  change_eq fact values hfate := by
    rw [resetFate] at hfate
    split_ifs at hfate
    cases hfate
    rfl
  does fact := by
    rw [resetFate, resetFact_eq]
    by_cases h : fact.isCleared = true
    · rw [if_pos h, if_pos h]
      exact .pure x.run []
    · rw [if_neg h, if_neg h]
      let f (values : FactValues) : FactValues :=
        { values with value := .zero, refValue := .zero }
      have hf : ∀ values, (f values).value = .zero := fun _ ↦ rfl
      exact .change x fact hf

theorem amends_resetSlice {x : WorkContext} {codes : SortedMap String String} {f : Filter}
    (h : x.filter codes = .ok f) :
    (PlanningFunction.resetSlice codes).Amends x f resetFate := by
  refine ⟨resetting x, rfl, fun b ↦ ?_⟩
  rw [PlanningFunction.work, resetSlice, h]
  rfl

/-! ## What readers find -/

/-- A filter asks for everything that another one asks for. -/
def Filter.Includes (f slice : Filter) : Prop :=
  ∀ d id, slice.get? d = some id → f.get? d = some id

/-- Reading within a session with a filter that includes a slice reaches cells of the slice only. -/
theorem Filter.Includes.selects {f slice : Filter} (h : f.Includes slice) {session : SessionId}
    {period : Option DimId} {c : Cell} (hc : f.selects (.ofSession session period) c = true) :
    slice.selects (.ofSession session) c = true := by
  have hadmits : slice.admits c = true := by
    rw [admits, List.all_eq_true]
    intro entry hentry
    have hasked := h entry.1 entry.2 (SortedMap.get?_eq_some_iff.mpr hentry)
    rw [get?_of_selects hc hasked]
    exact beq_self_eq_true _
  rw [Filter.selects, hadmits, Bool.and_true]
  simp [Scope.contains, Scope.holdsSession, Scope.holdsPeriod, Scope.ofSession,
    session_of_selects hc]

/-- A slice of a session was set to zero. -/
structure Store.Cleared (s s' : Store) (session : SessionId) (slice : Filter) : Prop where
  /-- The current facts of the slice are those of the same keys, with their numbers and units. -/
  facts : ∀ fact ∈ s.selectCurrent slice (.ofSession session), ∃ values,
    s'.currentFact? fact.cell = some { fact with values } ∧
      values.unit = fact.values.unit ∧ values.refUnit = fact.values.refUnit
  zero : ∀ fact ∈ s'.selectCurrent slice (.ofSession session),
    fact.values.value.isZero = true ∧ fact.values.refValue.isZero = true
  others : ∀ c, slice.selects (.ofSession session) c = false →
    s'.currentFact? c = s.currentFact? c
  get_zero : ∀ (keyFigure : DimId) (f : Filter) (period : Option DimId),
    Filter.Includes (f.insert .keyFigure keyFigure) slice →
      (s'.get keyFigure f (.ofSession session period)).isZero = true
  /-- For an average the number of facts has to be a decimal number. -/
  aggregate_zero : ∀ (kind : Aggregate) (keyFigure : DimId) (f : Filter) (period : Option DimId),
    Filter.Includes (f.insert .keyFigure keyFigure) slice →
      (kind = .avg → (s'.currentOf keyFigure f (.ofSession session period)).length < 2 ^ 96) →
        ∃ v, s'.aggregate? kind keyFigure f (.ofSession session period) = some v ∧
          v.isZero = true

namespace Store

variable {s s' : Store} {session : SessionId} {slice : Filter}

private theorem isZero_of_mem_currentOf
    (hzero : ∀ fact ∈ s.selectCurrent slice (.ofSession session), fact.isCleared = true)
    {keyFigure : DimId} {f : Filter} (period : Option DimId)
    (h : Filter.Includes (f.insert .keyFigure keyFigure) slice) :
    ∀ d ∈ (s.currentOf keyFigure f (.ofSession session period)).map Fact.value,
      d.isZero = true := by
  intro d hd
  obtain ⟨fact, hfact, rfl⟩ := List.mem_map.mp hd
  obtain ⟨hnewest, hselects⟩ := mem_selectCurrent_iff.mp hfact
  have hcleared := hzero fact (mem_selectCurrent_iff.mpr ⟨hnewest, h.selects hselects⟩)
  exact (Bool.and_eq_true_iff.mp hcleared).1

/-- **A slice of zeros.** Where the current facts of a slice were set to zero, every reader finds
zero in it. -/
theorem Amended.cleared
    (h : s.Amended s' (s.selectCurrent slice (.ofSession session)) resetFate) :
    s.Cleared s' session slice := by
  have hzero : ∀ fact ∈ s'.selectCurrent slice (.ofSession session), fact.isCleared = true := by
    intro fact hfact
    rw [h.selectCurrent_eq] at hfact
    obtain ⟨before, -, rfl⟩ := List.mem_map.mp hfact
    exact isCleared_apply_resetFate before
  refine ⟨fun fact hfact ↦ ?_, fun fact hfact ↦ Bool.and_eq_true_iff.mp (hzero fact hfact),
    fun c hc ↦ ?_, fun keyFigure f period hf ↦ ?_, fun kind keyFigure f period hf hcount ↦ ?_⟩
  · refine ⟨_, h.current fact hfact, ?_⟩
    rw [resetFate]
    split_ifs <;> exact ⟨rfl, rfl⟩
  · refine h.otherCells c fun fact hfact hcell ↦ ?_
    rw [← hcell, (mem_selectCurrent_iff.mp hfact).2] at hc
    cases hc
  · have hvalues := isZero_of_mem_currentOf hzero period hf
    rw [get, ← List.head?_map]
    cases hhead : ((s'.currentOf keyFigure f (.ofSession session period)).map Fact.value).head? with
    | none => rfl
    | some d => exact hvalues d (List.mem_of_head? hhead)
  · refine Aggregate.ofValues?_of_isZero (isZero_of_mem_currentOf hzero period hf) fun hkind ↦ ?_
    rw [List.length_map]
    exact hcount hkind

end Store

/-! ## Setting a slice of an engine to zero -/

theorem length_restatements_resetFate (r : Registry) (facts : List Fact) :
    (r.restatements resetFate facts).length = facts.countP fun fact ↦ !fact.isCleared := by
  rw [Registry.restatements, List.length_filterMap_eq_countP]
  refine List.countP_congr fun fact _ ↦ ?_
  rw [resetFate]
  split_ifs with h <;> simp [h, Fate.values?]

namespace Engine

variable {e : Engine} {id : SessionId} {session : Session} {codes : SortedMap String String}
  {slice : Filter}

/-- **Setting a slice to zero.** On a session that there is, codes that resolve to a filter give a
run that succeeds outside of a unit of work, unless it has more facts than a run has entries. A run
that succeeds leaves zeros for every reader of the slice, and all other cells as they were. It
counts the current facts of the slice that were not zero in both numbers. A second run counts and
lists nothing and leaves the store exactly as it is. -/
theorem resetSlice_clears (h : e.Reachable) (hsession : e.sessionOfWork id = .ok session)
    (hfilter : (e.workContext id session e.nextRun).filter codes = .ok slice) :
    (e.store.inUnit = false →
      (e.store.selectCurrent slice (.ofSession id)).length ≤ maxEntries →
        ∃ outcome, (e.runFunction (.resetSlice codes) id).1 = .ok outcome) ∧
    ∀ outcome, (e.runFunction (.resetSlice codes) id).1 = .ok outcome →
      e.store.Cleared (e.runFunction (.resetSlice codes) id).2.store id slice ∧
      outcome.affected = (e.store.selectCurrent slice (.ofSession id)).countP
        (fun fact ↦ !(fact.values.value.isZero && fact.values.refValue.isZero)) ∧
      ∃ again, ((e.runFunction (.resetSlice codes) id).2.runFunction (.resetSlice codes) id).1 =
          .ok again ∧
        again.affected = 0 ∧ again.entries = [] ∧
        ((e.runFunction (.resetSlice codes) id).2.runFunction (.resetSlice codes) id).2.store =
          (e.runFunction (.resetSlice codes) id).2.store := by
  have hamends : ∀ session run,
      (PlanningFunction.resetSlice codes).Amends (e.workContext id session run) slice resetFate :=
    fun _ _ ↦ amends_resetSlice hfilter
  refine ⟨fun hfree hroom ↦ ?_, fun outcome hrun ↦ ?_⟩
  · refine exists_outcome_of_amends h.wellFormed hamends hsession hfree ?_
    exact Nat.le_trans (List.length_filterMap_le _ _) hroom
  · obtain ⟨hamended, hreported⟩ := amended_runFunction hamends hrun
    have hsettled : ∀ fact values, resetFate fact = .restated values →
        resetFate { fact with values } = .left := by
      intro fact values hfate
      rw [resetFate] at hfate
      split_ifs at hfate
      cases hfate
      rfl
    obtain ⟨again, hagain, hnone, hempty, -, hsame⟩ :=
      rerun_of_amends h.wellFormed hamends hsettled hrun
    refine ⟨hamended.cleared, ?_, again, hagain, hnone, hempty, hsame⟩
    rw [hreported.affected, length_restatements_resetFate]
    rfl

/-- The small plan after its first session was reposted, with two rows for each cell then. -/
private def repostedPlan : Engine := smallPlan.after (.run (.function .repost 1))

private def firstUnit : SortedMap String String := .ofList [("OrgUnit", "O1")]

/-- Setting the first organisational unit to zero restates the one current fact of it, whatever the
older row of its cell holds. -/
theorem resetSlice_clears_repostedPlan : repostedPlan.Reachable ∧ ∃ outcome,
    (repostedPlan.runFunction (.resetSlice firstUnit) 1).1 = .ok outcome ∧
    repostedPlan.store.Cleared (repostedPlan.runFunction (.resetSlice firstUnit) 1).2.store 1
      (.ofList [(.orgUnit, 1)]) ∧
    outcome.affected = 1 ∧
    ((repostedPlan.runFunction (.resetSlice firstUnit) 1).2.store.find?
      ((smallCell 1).inBatch 1)).map Fact.value = some ten := by
  have hreachable : repostedPlan.Reachable := reachable_smallPlan.call _
  let session : Session := { version := 1, year := 1, orgUnit := some 1 }
  have hsession : repostedPlan.sessionOfWork 1 = .ok session := by decide +kernel
  have hfilter : (repostedPlan.workContext 1 session repostedPlan.nextRun).filter firstUnit =
      .ok (.ofList [(.orgUnit, 1)]) := by
    decide +kernel
  obtain ⟨hsucceeds, hdone⟩ := resetSlice_clears hreachable hsession hfilter
  obtain ⟨outcome, hrun⟩ := hsucceeds (by decide +kernel) (by decide +kernel)
  obtain ⟨hcleared, hcount, -⟩ := hdone outcome hrun
  exact ⟨hreachable, outcome, hrun, hcleared, hcount.trans (by decide +kernel), by decide +kernel⟩

end Engine

end PlanLedger
