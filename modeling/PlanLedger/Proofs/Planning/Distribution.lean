import PlanLedger.Proofs.Planning.Reachable
import PlanLedger.Proofs.Planning.Turns

/-!
# Distributions reach their totals

A distribution that succeeds in an engine consists of turns, one for each group, and the new values
that the turns calculate are the values that the facts have afterwards. The new values of a group
add up to its total, rounded to the decimals of the engine, as long as every number on the way is on
the grid of these decimals.
-/

namespace PlanLedger

open Decimal (OnGrid)

namespace Engine

/-- A distribution in an engine: its turns make up what it writes, lists and reports. -/
structure DistributedBy (e : Engine) (id : SessionId) (groupBy : List String) (reference : String)
    (outcome : FunctionOutcome) (x : WorkContext) (dims : List Dimension) (rows : List Fact)
    (turns : List Turn) : Prop where
  context : ∃ session, e.sessionOfWork id = .ok session ∧ x = e.workContext id session e.nextRun
  distributes : Distributes x e.store groupBy reference dims rows turns
  store : (e.runFunction (.distribute groupBy reference) id).2.store = storeAfter x e.store turns
  entries : outcome.entries.map RunEntry.toEntry =
    (turns.flatMap (Turn.writes x)).map Write.entry
  errors : outcome.errors = turns.flatMap (Turn.reports x)

variable {e : Engine} {id : SessionId} {groupBy : List String} {reference : String}
  {outcome : FunctionOutcome}

theorem exists_distributedBy
    (h : (e.runFunction (.distribute groupBy reference) id).1 = .ok outcome) :
    ∃ x dims rows turns, e.DistributedBy id groupBy reference outcome x dims rows turns := by
  obtain ⟨hsaved, session, tally, worked, hsession, hwork, rfl, hstore⟩ :=
    exists_work_of_runFunction h
  obtain ⟨dims, rows, turns, hturns, rfl, hwrote⟩ := run_distribute_eq_ok hwork
  refine ⟨_, dims, rows, turns, ⟨session, hsession, rfl⟩, hturns.of_withSaved, ?_, ?_, rfl⟩
  · rw [hstore, hwrote.store]
    exact Write.applyAll_of_saved hsaved _ _
  · have hentries := hwrote.entries_eq (run?_begun _ _)
    exact (congrArg (List.map RunEntry.toEntry) hentries).trans (Write.entries_listAll _ _)

namespace DistributedBy

variable {x : WorkContext} {dims : List Dimension} {rows : List Fact} {turns : List Turn}

theorem scale_eq (h : e.DistributedBy id groupBy reference outcome x dims rows turns) :
    x.scale = e.options.scale := by
  obtain ⟨session, -, rfl⟩ := h.context
  rfl

theorem lookUpContext_eq (h : e.DistributedBy id groupBy reference outcome x dims rows turns)
    (s : Store) :
    x.lookUpContext s = { store := s, registry := e.registry, catalog := e.catalog } := by
  obtain ⟨session, -, rfl⟩ := h.context
  rfl

theorem dims_eq (h : e.DistributedBy id groupBy reference outcome x dims rows turns)
    {dims' : List Dimension} (hdims' : groupBy.map e.registry.dimension = dims'.map Except.ok) :
    dims = dims' := by
  obtain ⟨session, -, rfl⟩ := h.context
  exact h.distributes.dimensions_eq hdims'

theorem rows_eq (h : e.DistributedBy id groupBy reference outcome x dims rows turns)
    {data : Formula.ReferenceData} {keyFigure : DimId}
    (hdata : e.catalog.reference reference = .ok data)
    (hkeyFigure : e.registry.resolve .keyFigure data.keyFigure = .ok keyFigure) :
    rows = e.store.currentOf keyFigure ∅ (.ofSession id) := by
  obtain ⟨session, -, rfl⟩ := h.context
  exact h.distributes.rows_eq hdata hkeyFigure

end DistributedBy

/-- **Distributions reach their totals.** A distribution that succeeds takes turns. A group without
a total or without a base keeps its values, and no entry lists its facts. Where all shares of a
group can be calculated and all numbers on the way are on the grid of the decimals of the engine,
its facts have their shares afterwards, but for the last of those with the largest share, and the
new values add up to the rounded total. The facts of a group stand in the order of their cells. -/
theorem distribute_reaches_total
    (h : (e.runFunction (.distribute groupBy reference) id).1 = .ok outcome) :
    ∃ x dims rows turns, e.DistributedBy id groupBy reference outcome x dims rows turns ∧
      ∀ t ∈ turns, t.facts.Pairwise (fun a b ↦ compare a.cell b.cell = .lt) ∧
        (t.IsIdle → t.LeftAlone (e.runFunction (.distribute groupBy reference) id).2.store
          outcome.entries) ∧
        ∀ base, sum? (t.facts.map Fact.value) = some base → base.isZero = false →
          t.total.isZero = false → t.reports x = [] →
          ∃ shares, t.HasShares e.options.scale base shares ∧
            (SettlesOnGrid e.options.scale shares (t.total.toPlaces e.options.scale) →
              ∃ i share settled, IsLastLargest shares i share ∧
                t.HaveValues (e.runFunction (.distribute groupBy reference) id).2.store
                  (shares.set i settled) ∧
                exactSum (shares.set i settled) = (t.total.toPlaces e.options.scale).toRat) := by
  obtain ⟨x, dims, rows, turns, hdist⟩ := exists_distributedBy h
  refine ⟨x, dims, rows, turns, hdist, fun t ht ↦ ⟨?_, fun hidle ↦ ?_, ?_⟩⟩
  · exact hdist.distributes.increasing.sublist (hdist.distributes.facts_sublist ht)
  · intro fact hfact
    have hnone := hidle.newValues_eq_nil x.scale
    refine ⟨?_, fun entry hentry ↦ ?_⟩
    · rw [hdist.store]
      exact hdist.distributes.currentValues?_of_newValues_eq_nil ht hnone hfact
    · have hlisted := List.mem_map_of_mem (f := RunEntry.toEntry) hentry
      rw [hdist.entries] at hlisted
      obtain ⟨w, hw, heq⟩ := List.mem_map.mp hlisted
      have hne := hdist.distributes.cell_ne_of_newValues_eq_nil ht hnone hfact w hw
      rwa [Write.key, heq] at hne
  · intro base hbase hnonzero htotal hreports
    rw [← hdist.scale_eq]
    obtain ⟨shares, hshares⟩ :=
      Turn.exists_hasShares (Turn.failed_eq_nil hbase htotal hnonzero hreports)
    refine ⟨shares, hshares, fun hgrid ↦ ?_⟩
    have hne : shares ≠ [] := by
      rw [← List.length_pos_iff, ← hshares.length_eq, List.length_pos_iff]
      exact hdist.distributes.facts_ne_nil ht
    obtain ⟨i, share, settled, hlargest, hsettled, hsum⟩ :=
      settle_reaches_total hne (t.total.scale_toPlaces_le _) hshares.scale_le hgrid
    have hvalues := hdist.distributes.haveValues_settle ht hshares hbase htotal hnonzero
    rw [hsettled] at hsum hvalues
    rw [hdist.store]
    exact ⟨i, share, settled, hlargest, hvalues, hsum⟩

/-! ### Shares of a total -/

private def totalCell : Cell :=
  { session := 2, version := 2, year := 1, period := 1, orgUnit := 1, keyFigure := 1 }

/-- A plan of some values, one for each organisational unit, and actual data of a total. -/
def sharingPlan (scale : Nat) (values : List Decimal) (total : Decimal) : Engine where
  store := List.foldl Store.after ∅ <|
    [.createSession { version := 1, year := 1 }, .createSession { version := 2, year := 1 },
      .createBatch { session := 1, action := .delta },
      .createBatch { session := 2, action := .delta },
      .put (totalCell.inBatch 2) { value := total }] ++
    values.zipIdx.map fun p ↦ .put ((smallCell (p.2 + 1)).inBatch 1) { value := p.1 }
  registry := ⟨.ofList [(.orgUnit, masterListWith ["O1"]), (.period, masterListWith ["01"]),
    (.year, masterListWith ["2024"]), (.version, masterListWith ["P0", "ACT"]),
    (.keyFigure, masterListWith ["REV"])]⟩
  catalog :=
    { references := .ofList
        [("Total", { name := "Total", keyFigure := "REV", version := some "ACT" })] }
  options := { scale }

theorem reachable_sharingPlan (scale : Nat) (values : List Decimal) (total : Decimal) :
    (sharingPlan scale values total).Reachable := .new (Store.Reachable.empty.calls _) _ _ _ _

/-- The one turn of a distribution of the total in a sharing plan. -/
def sharingTurn (scale : Nat) (values : List Decimal) (total : Decimal) : Turn where
  group := []
  facts := (sharingPlan scale values total).store.currentOf 1 ∅ (.ofSession 1)
  total := total

theorem turns_sharingPlan {scale : Nat} {values : List Decimal} {total : Decimal}
    {x : WorkContext} {dims : List Dimension} {rows : List Fact} {turns : List Turn}
    (h : (sharingPlan scale values total).DistributedBy 1 [] "Total" outcome x dims rows turns)
    (hne : (sharingTurn scale values total).facts ≠ [])
    (htotal : Formula.ReferenceContext.value
      { store := (sharingPlan scale values total).store,
        registry := (sharingPlan scale values total).registry,
        catalog := (sharingPlan scale values total).catalog } ∅ (groupCall "Total" []) =
      .ok total) :
    rows = (sharingTurn scale values total).facts ∧ turns = [sharingTurn scale values total] := by
  obtain rfl : rows = (sharingTurn scale values total).facts := h.rows_eq rfl rfl
  obtain ⟨read, rfl⟩ := h.distributes.eq_singleton hne
  have hread := h.distributes.totals [] _ [] rfl
  rw [Turn.HasTotal, h.lookUpContext_eq] at hread
  obtain rfl : total = read := Except.ok.inj (htotal.symm.trans hread)
  exact ⟨rfl, rfl⟩

def hundred : Decimal := { Decimal.zero with mantissa := 100, mantissa_lt := by decide }

def wholeBase : Decimal := { Decimal.zero with mantissa := 30, mantissa_lt := by decide }

theorem four_le_maxScale : 4 ≤ 28 := by decide

/-- A third of one hundred, with four decimals. -/
def third : Decimal := ⟨false, 333333, 4, by decide, four_le_maxScale⟩

/-- A total of one hundred for three organisational units with ten each. -/
def thirds : Engine := sharingPlan 4 [ten, ten, ten] hundred

def thirdsTurn : Turn := sharingTurn 4 [ten, ten, ten] hundred

/-- Thirds of one hundred miss it by one last decimal, which goes to the last of them. -/
theorem distribute_reaches_total_thirds :
    ∃ outcome x dims, (thirds.runFunction (.distribute [] "Total") 1).1 = .ok outcome ∧
      thirds.DistributedBy 1 [] "Total" outcome x dims thirdsTurn.facts [thirdsTurn] ∧
      thirdsTurn.HasShares 4 wholeBase [third, third, third] ∧
      SettlesOnGrid 4 [third, third, third] (hundred.toPlaces 4) ∧
      ∃ i share settled, IsLastLargest [third, third, third] i share ∧
        thirdsTurn.HaveValues (thirds.runFunction (.distribute [] "Total") 1).2.store
          ([third, third, third].set i settled) ∧
        exactSum ([third, third, third].set i settled) = (hundred.toPlaces 4).toRat := by
  obtain ⟨outcome, hrun⟩ : ∃ outcome, (thirds.runFunction (.distribute [] "Total") 1).1 =
    .ok outcome := exists_eq_ok (by decide +kernel)
  obtain ⟨x, dims, rows, turns, hdist, hturns⟩ := distribute_reaches_total hrun
  obtain ⟨hrows, hturn⟩ : rows = thirdsTurn.facts ∧ turns = [thirdsTurn] :=
    turns_sharingPlan hdist (by decide +kernel) (by decide +kernel)
  rw [hrows, hturn] at hdist
  obtain ⟨-, -, hreaches⟩ := hturns thirdsTurn (by rw [hturn]; exact List.mem_cons_self)
  have hbase : sum? (thirdsTurn.facts.map Fact.value) = some wholeBase := by decide +kernel
  have hshares : thirdsTurn.HasShares x.scale wholeBase [third, third, third] := by
    rw [hdist.scale_eq]
    exact Turn.hasShares_iff.mpr (by decide +kernel)
  have hreports := hshares.reports_eq_nil hbase
  rw [hdist.scale_eq] at hshares
  have hgrid : SettlesOnGrid 4 [third, third, third] (hundred.toPlaces 4) := by
    refine ⟨by decide +kernel, fun part hpart ↦ ?_, by decide +kernel, by decide +kernel,
      fun i share hlargest ↦ ?_⟩
    · revert part
      simp only [← List.mem_inits]
      decide +kernel
    · obtain ⟨rfl, rfl⟩ := (isLastLargest_cons third [third, third]).unique hlargest
      decide +kernel
  obtain ⟨shares, hfound, hreaches⟩ := hreaches wholeBase hbase (by decide) (by decide) hreports
  obtain rfl := hshares.unique hfound
  exact ⟨outcome, x, dims, hrun, hdist, hshares, hgrid, hreaches hgrid⟩

private theorem le_maxScale : 28 ≤ 28 := Nat.le_refl 28

/-- A multiple of the last decimal that numbers can have. -/
private def tiny (negative : Bool) (ticks : Nat) (h : ticks < 2 ^ 96 := by decide) : Decimal :=
  ⟨negative, ticks, 28, h, le_maxScale⟩

/-- Values that all but cancel out, so that their sum is one last decimal. -/
private def driftValues : List Decimal :=
  tiny true 7 :: (List.replicate 8 [tiny false 8, tiny true 7]).flatten

private def driftTotal : Decimal := tiny false 9300000000000000000000000003

private def drift : Engine := sharingPlan 28 driftValues driftTotal

private def driftTurn : Turn := sharingTurn 28 driftValues driftTotal

private def driftShares : List Decimal :=
  tiny true 70000000000000000000000000000 ::
    (List.replicate 8 [tiny false 70000000000000000000000000000,
      tiny true 70000000000000000000000000000]).flatten

/-- It is not enough that shares, their sums, the total, the settled share and all new values are on
the grid. What these shares miss to the total, `7.9300000000000000000000000003`, has one digit too
many, so it is rounded, and the new values miss the total. -/
theorem distribute_misses_total :
    drift.Reachable ∧
      ∃ outcome x dims, (drift.runFunction (.distribute [] "Total") 1).1 = .ok outcome ∧
        drift.DistributedBy 1 [] "Total" outcome x dims driftTurn.facts [driftTurn] ∧
        (sum? (driftTurn.facts.map Fact.value) = some (tiny false 1) ∧
          (tiny false 1).isZero = false ∧ driftTurn.total.isZero = false ∧
          driftTurn.reports x = [] ∧ driftTurn.HasShares 28 (tiny false 1) driftShares) ∧
        ((∀ share ∈ driftShares, OnGrid 28 share.toRat) ∧
          (∀ part, part <+: driftShares → OnGrid 28 (exactSum part)) ∧
          OnGrid 28 (driftTurn.total.toPlaces 28).toRat ∧
          ∀ i share, IsLastLargest driftShares i share →
            OnGrid 28
              (share.toRat + ((driftTurn.total.toPlaces 28).toRat - exactSum driftShares))) ∧
        ∃ new, driftTurn.HaveValues (drift.runFunction (.distribute [] "Total") 1).2.store new ∧
          (∀ value ∈ new, OnGrid 28 value.toRat) ∧
          exactSum new ≠ (driftTurn.total.toPlaces 28).toRat := by
  obtain ⟨outcome, hrun⟩ : ∃ outcome, (drift.runFunction (.distribute [] "Total") 1).1 =
    .ok outcome := exists_eq_ok (by decide +kernel)
  obtain ⟨x, dims, rows, turns, hdist⟩ := exists_distributedBy hrun
  obtain ⟨hrows, hturn⟩ : rows = driftTurn.facts ∧ turns = [driftTurn] :=
    turns_sharingPlan hdist (by decide +kernel) (by decide +kernel)
  rw [hrows, hturn] at hdist
  have hbase : sum? (driftTurn.facts.map Fact.value) = some (tiny false 1) := by decide +kernel
  have hshares : driftTurn.HasShares x.scale (tiny false 1) driftShares := by
    rw [hdist.scale_eq]
    exact Turn.hasShares_iff.mpr (by decide +kernel)
  have hvalues := hdist.distributes.haveValues_settle List.mem_cons_self hshares hbase
    (by decide) (by decide)
  have hreports := hshares.reports_eq_nil hbase
  rw [hdist.scale_eq] at hshares hvalues
  rw [← hdist.store] at hvalues
  refine ⟨reachable_sharingPlan _ _ _, outcome, x, dims, hrun, hdist,
    ⟨hbase, by decide, by decide, hreports, hshares⟩,
    ⟨by decide +kernel, fun part hpart ↦ ?_, by decide +kernel, fun i share hlargest ↦ ?_⟩,
    _, hvalues, by decide +kernel, by decide +kernel⟩
  · revert part
    simp only [← List.mem_inits]
    decide +kernel
  · obtain ⟨rfl, rfl⟩ := (isLastLargest_cons _ _).unique hlargest
    decide +kernel

end Engine

end PlanLedger
