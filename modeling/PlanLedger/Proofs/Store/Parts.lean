import Mathlib.Algebra.BigOperators.Ring.Finset
import Mathlib.Order.Bounds.Basic
import PlanLedger.Proofs.Fact.Aggregate
import PlanLedger.Proofs.Store.Agreement
import PlanLedger.Proofs.Store.Reachable

/-!
# Reading by parts

A dimension that neither the filter nor the scope speaks of splits what is read: for every value on
it there is the part that is read with the value added to the filter, and the facts that leave the
dimension open are one more part. Each part is selected on its own, with its own pass for the newest
facts; but adding a value to the filter is the same as filtering what was read without it, so every
current fact is in exactly one part.

So the sums of the parts add up to the sum of the whole, as long as the sums are exact. The least
number that a current fact holds is the least one of the least numbers of the parts and of what the
facts hold that leave the dimension open; and so for the greatest.
-/

namespace PlanLedger

/-! ## One more value in a filter -/

/-- Reading with a filter and a scope does not speak of a dimension. -/
structure Filter.LeavesFree (f : Filter) (scope : Scope) (d : Dimension) : Prop where
  notKeyFigure : d ≠ .keyFigure
  unasked : f.get? d = none
  /-- Asking for a period would lift the period of the scope. -/
  unscoped : d = .period → scope.period = none

section

variable {f : Filter} {scope : Scope} {d : Dimension}

theorem Filter.contains_insert {c : Cell} (h : f.LeavesFree scope d) (v : DimId) :
    scope.contains (f.insert d v) c = scope.contains f c := by
  rw [Scope.contains, Scope.contains, Scope.holdsPeriod, Scope.holdsPeriod]
  cases hperiod : scope.period with
  | none => rfl
  | some period =>
    have hne : Dimension.period ≠ d := by
      rintro rfl
      rw [h.unscoped rfl] at hperiod
      cases hperiod
    simp only [SortedMap.contains, SortedMap.get?_insert_of_ne f v hne]

theorem Filter.admits_insert {c : Cell} (h : f.get? d = none) (v : DimId) :
    admits (f.insert d v) c = (f.admits c && c.get? d == some v) := by
  rw [Bool.eq_iff_iff, Bool.and_eq_true, beq_iff_eq, admits_iff, admits_iff]
  constructor
  · intro hall
    refine ⟨fun d' id hid ↦ hall d' id ?_, hall d v (f.get?_insert_self d v)⟩
    have hne : d' ≠ d := by
      rintro rfl
      rw [h] at hid
      cases hid
    rw [f.get?_insert_of_ne v hne, hid]
  · rintro ⟨hall, hv⟩ d' id hid
    rw [SortedMap.get?_insert] at hid
    split_ifs at hid with hd
    · rw [hd, hv, hid]
    · exact hall d' id hid

theorem Filter.selects_insert (h : f.LeavesFree scope d) (v : DimId) (c : Cell) :
    selects (f.insert d v) scope c = (f.selects scope c && c.get? d == some v) := by
  rw [selects, selects, contains_insert h, admits_insert h.unasked, Bool.and_assoc]

end

/-! ## Facts by their values on a dimension -/

/-- The facts with some value on a dimension, or those without any. -/
def partOn (d : Dimension) (v : Option DimId) (facts : List Fact) : List Fact :=
  facts.filter fun fact ↦ fact.cell.get? d == v

section

variable {d : Dimension} {v : Option DimId} {facts : List Fact} {fact : Fact}

theorem mem_partOn : fact ∈ partOn d v facts ↔ fact ∈ facts ∧ fact.cell.get? d = v := by
  rw [partOn, List.mem_filter, beq_iff_eq]

theorem exactSum_partOn_cons (rest : List Fact) :
    exactSum ((partOn d v (fact :: rest)).map Fact.value) =
      (if fact.cell.get? d = v then fact.value.toRat else 0) +
        exactSum ((partOn d v rest).map Fact.value) := by
  rw [partOn, List.filter_cons]
  split_ifs with hif heq heq
  · rw [List.map_cons, exactSum_cons, partOn]
  · exact absurd (beq_iff_eq.mp hif) heq
  · exact absurd (beq_iff_eq.mpr heq) hif
  · rw [zero_add, partOn]

/-- **Sums by parts.** Every fact counts in exactly one part. -/
theorem exactSum_eq_sum_parts {values : Finset DimId}
    (h : ∀ fact ∈ facts, ∀ v, fact.cell.get? d = some v → v ∈ values) :
    exactSum (facts.map Fact.value) =
      ∑ v ∈ values, exactSum ((partOn d (some v) facts).map Fact.value) +
        exactSum ((partOn d none facts).map Fact.value) := by
  induction facts with
  | nil =>
    have hempty (v : Option DimId) : exactSum ((partOn d v []).map Fact.value) = 0 := rfl
    simp only [hempty, Finset.sum_const_zero, add_zero]
    rfl
  | cons fact rest ih =>
    obtain ⟨hfact, hrest⟩ := List.forall_mem_cons.mp h
    simp only [exactSum_partOn_cons, Finset.sum_add_distrib]
    rw [List.map_cons, exactSum_cons, ih hrest]
    cases hvalue : fact.cell.get? d with
    | none =>
      simp only [reduceCtorEq, if_false, if_true, Finset.sum_const_zero]
      ring
    | some v =>
      simp only [Option.some_inj, reduceCtorEq, if_false, Finset.sum_ite_eq,
        if_pos (hfact v hvalue)]
      ring

theorem Aggregate.Picks.exists_fact {kind : Aggregate} {r : ℚ → ℚ → Prop} (h : kind.Picks r)
    (hfacts : facts ≠ []) :
    ∃ fact ∈ facts, kind.ofValues? (facts.map Fact.value) = some fact.value ∧
      ∀ other ∈ facts, r fact.value.toRat other.value.toRat := by
  obtain ⟨m, hm, hpicked, hfirst⟩ := h (facts.map Fact.value) (by rwa [Ne, List.map_eq_nil_iff])
  obtain ⟨fact, hfact, rfl⟩ := List.mem_map.mp hm
  exact ⟨fact, hfact, hpicked, fun other hother ↦ hfirst _ (List.mem_map_of_mem hother)⟩

end

/-! ## Parts of what is read -/

namespace Store

variable {s : Store} {kind : Aggregate} {keyFigure : DimId} {f : Filter} {scope : Scope}
  {d : Dimension}

/-- **The part of a value.** What is read with a value added to the filter is the part of what was
read without it. -/
theorem currentOf_insert (h : f.LeavesFree scope d) (v : DimId) :
    s.currentOf keyFigure (f.insert d v) scope =
      partOn d (some v) (s.currentOf keyFigure f scope) := by
  have hfree : Filter.LeavesFree (f.insert .keyFigure keyFigure) scope d :=
    ⟨h.notKeyFigure, by rw [f.get?_insert_of_ne _ h.notKeyFigure, h.unasked], h.unscoped⟩
  rw [currentOf, currentOf, f.insert_comm h.notKeyFigure, partOn, selectCurrent_eq_filter,
    selectCurrent_eq_filter s (f.insert .keyFigure keyFigure), List.filter_filter]
  refine List.filter_congr fun fact _ ↦ ?_
  rw [Filter.selects_insert hfree, Bool.and_comm]

theorem partOn_none_eq_nil (h : d = .orgUnit ∨ d = .period ∨ d = .year ∨ d = .version)
    (facts : List Fact) : partOn d none facts = [] := by
  refine List.filter_eq_nil_iff.mpr fun fact _ ↦ ?_
  rcases h with rfl | rfl | rfl | rfl <;> exact Bool.false_ne_true

/-- The numbers that the current facts of a reading hold. -/
def currentValues (s : Store) (keyFigure : DimId) (f : Filter) (scope : Scope) : Set ℚ :=
  {q | ∃ fact ∈ s.currentOf keyFigure f scope, fact.value.toRat = q}

/-- The numbers that the parts of a reading give: of each value that occurs on a dimension, the
aggregate that is read with the value added to the filter, and of the current facts that leave the
dimension open, what each of them holds. -/
def partAggregates (s : Store) (kind : Aggregate) (keyFigure : DimId) (f : Filter) (scope : Scope)
    (d : Dimension) : Set ℚ :=
  {q | (∃ v part, (∃ fact ∈ s.currentOf keyFigure f scope, fact.cell.get? d = some v) ∧
      s.aggregate? kind keyFigure (f.insert d v) scope = some part ∧ part.toRat = q) ∨
    ∃ fact ∈ s.currentOf keyFigure f scope, fact.cell.get? d = none ∧ fact.value.toRat = q}

section

variable {r : ℚ → ℚ → Prop}

/-- What an aggregate picks of the part of a value is held by a fact of that part. -/
theorem exists_aggregate?_insert (h : f.LeavesFree scope d) (hpicks : kind.Picks r) {fact : Fact}
    (hfact : fact ∈ s.currentOf keyFigure f scope) {v : DimId} (hv : fact.cell.get? d = some v) :
    ∃ first ∈ s.currentOf keyFigure f scope,
      s.aggregate? kind keyFigure (f.insert d v) scope = some first.value ∧
      r first.value.toRat fact.value.toRat := by
  have hpart := mem_partOn.mpr ⟨hfact, hv⟩
  obtain ⟨first, hfirst, hvalue, hleads⟩ := hpicks.exists_fact (List.ne_nil_of_mem hpart)
  rw [← currentOf_insert h] at hvalue
  exact ⟨first, (mem_partOn.mp hfirst).1, hvalue, hleads fact hpart⟩

theorem partAggregates_subset (h : f.LeavesFree scope d) (hpicks : kind.Picks r) :
    s.partAggregates kind keyFigure f scope d ⊆ s.currentValues keyFigure f scope := by
  rintro q (⟨v, part, ⟨fact, hfact, hv⟩, hpart, rfl⟩ | ⟨fact, hfact, -, rfl⟩)
  · obtain ⟨first, hfirst, hvalue, -⟩ := exists_aggregate?_insert h hpicks hfact hv
    obtain rfl : part = first.value := Option.some_inj.mp (hpart.symm.trans hvalue)
    exact ⟨first, hfirst, rfl⟩
  · exact ⟨fact, hfact, rfl⟩

/-- **The first one by parts.** What an aggregate picks of the whole is held by a current fact and
given by the part of that fact, and no number that is held or given comes before it. -/
theorem exists_aggregate?_of_picks [IsPartialOrder ℚ r] (h : f.LeavesFree scope d)
    (hpicks : kind.Picks r) (hfacts : s.currentOf keyFigure f scope ≠ []) :
    ∃ m, s.aggregate? kind keyFigure f scope = some m ∧
      (m.toRat ∈ s.currentValues keyFigure f scope ∧
        ∀ q ∈ s.currentValues keyFigure f scope, r m.toRat q) ∧
      m.toRat ∈ s.partAggregates kind keyFigure f scope d ∧
        ∀ q ∈ s.partAggregates kind keyFigure f scope d, r m.toRat q := by
  obtain ⟨fact, hfact, hvalue, hfirst⟩ := hpicks.exists_fact hfacts
  have hleads : ∀ q ∈ s.currentValues keyFigure f scope, r fact.value.toRat q := by
    rintro q ⟨other, hother, rfl⟩
    exact hfirst other hother
  refine ⟨fact.value, hvalue, ⟨⟨fact, hfact, rfl⟩, hleads⟩, ?_,
    fun q hq ↦ hleads q (partAggregates_subset h hpicks hq)⟩
  cases hv : fact.cell.get? d with
  | none => exact .inr ⟨fact, hfact, hv, rfl⟩
  | some v =>
    obtain ⟨first, hmem, hpart, hbefore⟩ := exists_aggregate?_insert h hpicks hfact hv
    exact .inl ⟨v, first.value, ⟨fact, hfact, hv⟩, hpart,
      antisymm_of r hbefore (hfirst first hmem)⟩

end

/-- **Aggregates by parts.** On a dimension that a reading does not speak of, the sum of the whole
is that of the parts of all values that occur, each of them a reading with the value in the filter,
and of the current facts that leave the dimension open, as long as the sums of the whole and of the
parts are exact. The least number that a current fact holds is the least one of what is read of the
parts and what the facts hold that leave the dimension open, and the greatest one the greatest. No
fact leaves a dimension open on which each cell has a value. -/
theorem aggregate_by_parts (s : Store) (keyFigure : DimId) {f : Filter} {scope : Scope}
    {d : Dimension} (h : f.LeavesFree scope d) :
    (∀ values : Finset DimId,
        (∀ fact ∈ s.currentOf keyFigure f scope, ∀ v, fact.cell.get? d = some v → v ∈ values) →
        SumsExactly ((s.currentOf keyFigure f scope).map Fact.value) →
        (∀ v ∈ values,
          SumsExactly ((s.currentOf keyFigure (f.insert d v) scope).map Fact.value)) →
        ∃ total, ∃ part : DimId → Decimal, s.aggregate? .sum keyFigure f scope = some total ∧
          total.toRat = exactSum ((s.currentOf keyFigure f scope).map Fact.value) ∧
          (∀ v ∈ values, s.aggregate? .sum keyFigure (f.insert d v) scope = some (part v)) ∧
          total.toRat = ∑ v ∈ values, (part v).toRat +
            exactSum ((partOn d none (s.currentOf keyFigure f scope)).map Fact.value)) ∧
      (d = .orgUnit ∨ d = .period ∨ d = .year ∨ d = .version →
        partOn d none (s.currentOf keyFigure f scope) = []) ∧
      (s.currentOf keyFigure f scope ≠ [] →
        ∃ least greatest, s.aggregate? .min keyFigure f scope = some least ∧
          IsLeast (s.currentValues keyFigure f scope) least.toRat ∧
          IsLeast (s.partAggregates .min keyFigure f scope d) least.toRat ∧
          s.aggregate? .max keyFigure f scope = some greatest ∧
          IsGreatest (s.currentValues keyFigure f scope) greatest.toRat ∧
          IsGreatest (s.partAggregates .max keyFigure f scope d) greatest.toRat) := by
  refine ⟨fun values hvalues hwhole hparts ↦ ?_, fun hd ↦ partOn_none_eq_nil hd _, fun hfacts ↦ ?_⟩
  · obtain ⟨total, htotal, htotalValue⟩ := hwhole.exists_ofValues?
    choose! part hpart hpartValue using fun v hv ↦ (hparts v hv).exists_ofValues?
    refine ⟨total, part, htotal, htotalValue, hpart, ?_⟩
    rw [htotalValue, exactSum_eq_sum_parts hvalues]
    congr 1
    refine Finset.sum_congr rfl fun v hv ↦ ?_
    rw [hpartValue v hv, currentOf_insert h]
  · obtain ⟨least, hleast, hminHeld, hminParts⟩ :=
      exists_aggregate?_of_picks h Aggregate.picks_min hfacts
    obtain ⟨greatest, hgreatest, hmaxHeld, hmaxParts⟩ :=
      exists_aggregate?_of_picks h Aggregate.picks_max hfacts
    exact ⟨least, greatest, hleast, hminHeld, hminParts, hgreatest, hmaxHeld, hmaxParts⟩

private def amount (n : Nat) : Decimal := (Decimal.ofParts? false n 0).getD .zero

/-- A store with facts of two accounts and of none, one of them superseded in a second batch. -/
private def accounts : Store :=
  let c : Cell :=
    { session := 1, version := 1, year := 1, period := 1, orgUnit := 1, keyFigure := 1 }
  [.createSession { version := 1, year := 1 }, .createBatch { session := 1, action := .delta },
    .createBatch { session := 1, action := .delta },
    .put (c.inBatch 1) { value := amount 4 },
    .put ({ c with account := some 1 }.inBatch 1) { value := amount 9 },
    .put ({ c with account := some 2 }.inBatch 1) { value := amount 2 },
    .put ({ c with account := some 1 }.inBatch 2) { value := amount 1 }].foldl after ∅

/-- By accounts, seven is one and two, read with the account, and four without an account. One is
the least number, read with its account, and four the greatest, of no account. -/
theorem aggregate_by_parts_accounts :
    Filter.LeavesFree ∅ {} .account ∧
      (accounts.currentOf 1 ∅ {}).map Fact.value = [amount 4, amount 1, amount 2] ∧
      (∃ total, ∃ part : DimId → Decimal, accounts.aggregate? .sum 1 ∅ {} = some total ∧
        total.toRat = exactSum ((accounts.currentOf 1 ∅ {}).map Fact.value) ∧
        (∀ v ∈ ({1, 2} : Finset DimId), accounts.aggregate? .sum 1
          (SortedMap.insert ∅ .account v) {} = some (part v)) ∧
        total.toRat = ∑ v ∈ ({1, 2} : Finset DimId), (part v).toRat +
          exactSum ((partOn .account none (accounts.currentOf 1 ∅ {})).map Fact.value)) ∧
      accounts.aggregate? .sum 1 ∅ {} = some (amount 7) ∧
      (partOn .account none (accounts.currentOf 1 ∅ {})).map Fact.value = [amount 4] ∧
      accounts.aggregate? .min 1 ∅ {} = some (amount 1) ∧
      IsLeast (accounts.currentValues 1 ∅ {}) (amount 1).toRat ∧
      IsLeast (accounts.partAggregates .min 1 ∅ {} .account) (amount 1).toRat ∧
      accounts.aggregate? .max 1 ∅ {} = some (amount 4) ∧
      IsGreatest (accounts.currentValues 1 ∅ {}) (amount 4).toRat ∧
      IsGreatest (accounts.partAggregates .max 1 ∅ {} .account) (amount 4).toRat := by
  have hfree : Filter.LeavesFree ∅ {} .account := ⟨by decide, rfl, fun _ ↦ rfl⟩
  obtain ⟨hsum, -, hextremes⟩ := aggregate_by_parts accounts 1 hfree
  have hvalues : (accounts.currentOf 1 ∅ {}).map Fact.value = [amount 4, amount 1, amount 2] := by
    decide +kernel
  have hoccur : ∀ fact ∈ accounts.currentOf 1 ∅ {}, ∀ v, fact.cell.get? .account = some v →
      v ∈ ({1, 2} : Finset DimId) := by
    have hall : ∀ fact ∈ accounts.currentOf 1 ∅ {},
        fact.cell.account ∈ [none, some 1, some 2] := by decide +kernel
    intro fact hfact v hv
    have hmem := hall fact hfact
    rw [show fact.cell.account = some v from hv] at hmem
    simpa using hmem
  have hwhole : SumsExactly ((accounts.currentOf 1 ∅ {}).map Fact.value) := by decide +kernel
  have hparts : ∀ v ∈ ({1, 2} : Finset DimId), SumsExactly
      ((accounts.currentOf 1 (SortedMap.insert ∅ .account v) {}).map Fact.value) := by
    decide +kernel
  have hsome : accounts.currentOf 1 ∅ {} ≠ [] := by
    intro hnil
    rw [hnil] at hvalues
    cases hvalues
  have hmin : accounts.aggregate? .min 1 ∅ {} = some (amount 1) := by decide +kernel
  have hmax : accounts.aggregate? .max 1 ∅ {} = some (amount 4) := by decide +kernel
  obtain ⟨least, greatest, hleast, hminHeld, hminParts, hgreatest, hmaxHeld, hmaxParts⟩ :=
    hextremes hsome
  obtain rfl : least = amount 1 := Option.some_inj.mp (hleast.symm.trans hmin)
  obtain rfl : greatest = amount 4 := Option.some_inj.mp (hgreatest.symm.trans hmax)
  exact ⟨hfree, hvalues, hsum {1, 2} hoccur hwhole hparts, by decide +kernel, by decide +kernel,
    hmin, hminHeld, hminParts, hmax, hmaxHeld, hmaxParts⟩

end Store

end PlanLedger
