import PlanLedger.Planning.Distribute
import PlanLedger.Proofs.SortedMap.Lookup

/-!
# Groups of facts

A group of a distribution is given by values on those of the asked dimensions that its facts have.
The facts of a group are the facts with its values, in the order in which the facts stand; every
fact is in one group.

A cell extends a group if it has all values of the group; it may have values on further dimensions
that the facts of the group leave open. What extends a group comes after it in the order of groups,
if the dimensions that a cell may leave open are not asked for before dimensions that are greater in
the order of dimensions.
-/

namespace PlanLedger

instance : Std.LawfulEqOrd GroupKey :=
  inferInstanceAs (Std.LawfulEqCmp (List.compareLex (compareBoth Prod.fst Prod.snd)))

variable {dims : List Dimension} {facts : List Fact} {c c' : Cell}

/-! ## The groups of a list of facts -/

theorem groupFacts_append_singleton (dims : List Dimension) (facts : List Fact) (last : Fact) :
    groupFacts dims (facts ++ [last]) =
      (groupFacts dims facts).insert (groupOf dims last.cell)
        ((((groupFacts dims facts).get? (groupOf dims last.cell)).getD []) ++ [last]) := by
  rw [groupFacts, List.foldl_append]
  rfl

/-- The facts that are collected for a group, where no facts mean that there is no such group. -/
theorem getD_get?_groupFacts (dims : List Dimension) (facts : List Fact) (group : GroupKey) :
    ((groupFacts dims facts).get? group).getD [] =
      facts.filter fun fact ↦ groupOf dims fact.cell = group := by
  -- Facts are collected from the front, so the induction adds facts at the end.
  induction facts using List.reverseRecOn generalizing group with
  | nil => rfl
  | append_singleton facts last ih =>
    rw [groupFacts_append_singleton, SortedMap.get?_insert, List.filter_append]
    by_cases h : group = groupOf dims last.cell
    · rw [if_pos h, Option.getD_some, ih, ← h, List.filter_cons_of_pos (by simp [h]),
        List.filter_nil]
    · rw [if_neg h, ih, List.filter_cons_of_neg (by simpa using Ne.symm h), List.filter_nil,
        List.append_nil]

theorem ne_nil_of_get?_groupFacts {group : GroupKey} {l : List Fact}
    (h : (groupFacts dims facts).get? group = some l) : l ≠ [] := by
  induction facts using List.reverseRecOn with
  | nil => cases h
  | append_singleton facts last ih =>
    rw [groupFacts_append_singleton, SortedMap.get?_insert] at h
    by_cases hgroup : group = groupOf dims last.cell
    · rw [if_pos hgroup, Option.some_inj] at h
      rw [← h]
      exact List.append_ne_nil_of_right_ne_nil _ (List.cons_ne_nil _ _)
    · rw [if_neg hgroup] at h
      exact ih h

/-- **Groups.** The groups of some facts are those that have facts, each with the facts of its
values in their order. -/
theorem mem_groupFacts_iff {group : GroupKey} {l : List Fact} :
    (group, l) ∈ (groupFacts dims facts).toList ↔
      l ≠ [] ∧ l = facts.filter fun fact ↦ groupOf dims fact.cell = group := by
  rw [← SortedMap.get?_eq_some_iff, ← getD_get?_groupFacts]
  constructor
  · intro h
    refine ⟨ne_nil_of_get?_groupFacts h, ?_⟩
    rw [h]
    rfl
  · rintro ⟨hne, hl⟩
    cases h : (groupFacts dims facts).get? group with
    | none =>
      rw [h] at hl
      exact absurd hl hne
    | some l' =>
      rw [h] at hl
      exact congrArg some hl.symm

theorem mem_of_mem_groupFacts {group : GroupKey × List Fact}
    (hgroup : group ∈ (groupFacts dims facts).toList) {fact : Fact} (hfact : fact ∈ group.2) :
    fact ∈ facts ∧ groupOf dims fact.cell = group.1 := by
  rw [(mem_groupFacts_iff.mp hgroup).2, List.mem_filter] at hfact
  exact ⟨hfact.1, by simpa using hfact.2⟩

theorem exists_mem_groupFacts {fact : Fact} (h : fact ∈ facts) :
    ∃ l, (groupOf dims fact.cell, l) ∈ (groupFacts dims facts).toList ∧ fact ∈ l := by
  have hmem : fact ∈ facts.filter fun other ↦ groupOf dims other.cell = groupOf dims fact.cell :=
    List.mem_filter.mpr ⟨h, by simp⟩
  exact ⟨_, mem_groupFacts_iff.mpr ⟨List.ne_nil_of_mem hmem, rfl⟩, hmem⟩

theorem groupFacts_map {f : Fact → Fact} (hf : ∀ fact, (f fact).cell = fact.cell)
    (dims : List Dimension) (facts : List Fact) : (groupFacts dims (facts.map f)).toList =
      (groupFacts dims facts).toList.map fun group ↦ (group.1, group.2.map f) := by
  have hfilter (group : GroupKey) :
      (facts.map f).filter (fun fact ↦ groupOf dims fact.cell = group) =
        (facts.filter fun fact ↦ groupOf dims fact.cell = group).map f := by
    rw [List.filter_map]
    simp only [Function.comp_def, hf]
  -- Both lists increase by group, so it is enough that they have the same members.
  refine eq_of_increasing (f := Prod.fst) (groupFacts dims (facts.map f)).increasing
    (List.pairwise_map.mpr (groupFacts dims facts).increasing) fun ⟨group, l⟩ ↦ ?_
  rw [mem_groupFacts_iff, hfilter, List.mem_map]
  constructor
  · rintro ⟨hne, rfl⟩
    exact ⟨(group, _), mem_groupFacts_iff.mpr ⟨fun hnil ↦ hne (by rw [hnil]; rfl), rfl⟩, rfl⟩
  · rintro ⟨⟨group', l'⟩, hmem, heq⟩
    obtain ⟨rfl, rfl⟩ := Prod.mk.inj heq
    obtain ⟨hne, rfl⟩ := mem_groupFacts_iff.mp hmem
    exact ⟨fun hnil ↦ hne (List.map_eq_nil_iff.mp hnil), rfl⟩

/-! ## Values of groups -/

theorem mem_groupOf_iff {d : Dimension} {id : DimId} :
    (d, id) ∈ groupOf dims c ↔ d ∈ dims ∧ c.get? d = some id := by
  rw [groupOf, List.mem_filterMap]
  constructor
  · rintro ⟨d', hd', h⟩
    obtain ⟨id', hid', heq⟩ := Option.map_eq_some_iff.mp h
    obtain ⟨rfl, rfl⟩ := Prod.mk.inj heq
    exact ⟨hd', hid'⟩
  · rintro ⟨hd, hid⟩
    exact ⟨d, hd, by rw [hid]; rfl⟩

def Cell.Extends (c : Cell) (group : GroupKey) : Prop := ∀ p ∈ group, c.get? p.1 = some p.2

/-- A cell extends the group of another cell if its own group has all values of that group. -/
theorem Cell.extends_groupOf_iff :
    c'.Extends (groupOf dims c) ↔ ∀ p ∈ groupOf dims c, p ∈ groupOf dims c' := by
  refine forall₂_congr fun p hp ↦ ?_
  obtain ⟨d, id⟩ := p
  rw [mem_groupOf_iff]
  exact (and_iff_right (mem_groupOf_iff.mp hp).1).symm

/-! ## The order of groups -/

/-- Whether every cell has a value on a dimension. -/
def Dimension.isAlwaysSet : Dimension → Bool
  | service | account | extra _ => false
  | _ => true

theorem Cell.get?_ne_none {d : Dimension} (h : d.isAlwaysSet = true) : c.get? d ≠ none := by
  cases d <;> first | exact Option.some_ne_none _ | exact absurd h Bool.false_ne_true

/-- No dimension that a cell may leave open is asked for before a greater dimension. -/
def OpenLast (dims : List Dimension) : Prop :=
  dims.Pairwise fun d d' ↦ d.isAlwaysSet = true ∨ compare d d' ≠ .lt

theorem groupOf_cons_of_some {d : Dimension} {id : DimId} (h : c.get? d = some id) :
    groupOf (d :: dims) c = (d, id) :: groupOf dims c := by
  rw [groupOf, List.filterMap_cons, h]
  rfl

theorem groupOf_cons_of_none {d : Dimension} (h : c.get? d = none) :
    groupOf (d :: dims) c = groupOf dims c := by
  rw [groupOf, List.filterMap_cons, h]
  rfl

theorem compare_cons (p q : Dimension × DimId) (group group' : GroupKey) :
    compare (p :: group : GroupKey) (q :: group') =
      ((compare p.1 q.1).then (compare p.2 q.2)).then (compare group group') :=
  List.compareLex_cons_cons

/-- A group that leaves a dimension open comes before one that has a value on it first, if no
greater dimension is asked for after it. -/
private theorem compare_groupOf_cons_eq_lt {d : Dimension} (hset : d.isAlwaysSet = false)
    (hdims : ∀ d' ∈ dims, d.isAlwaysSet = true ∨ compare d d' ≠ .lt) (h : c.get? d = none)
    (id : DimId) (rest : GroupKey) : compare (groupOf dims c) ((d, id) :: rest) = .lt := by
  cases hgroup : groupOf dims c with
  | nil => rfl
  | cons first others =>
    obtain ⟨d', id'⟩ := first
    have hmem : (d', id') ∈ groupOf dims c := by
      rw [hgroup]
      exact List.mem_cons_self
    obtain ⟨hd', hid'⟩ := mem_groupOf_iff.mp hmem
    have hne : compare d d' ≠ .eq := by
      intro heq
      rw [Std.LawfulEqOrd.eq_of_compare heq, hid'] at h
      cases h
    have hle := (hdims d' hd').resolve_left (Bool.eq_false_iff.mp hset)
    have hlt : compare d' d = .lt := by
      refine Std.OrientedCmp.lt_of_gt ?_
      cases hcompare : compare d d' with
      | lt => exact absurd hcompare hle
      | eq => exact absurd hcompare hne
      | gt => rfl
    rw [compare_cons, hlt]
    rfl

theorem compare_groupOf_ne_gt (hdims : OpenLast dims) (h : c'.Extends (groupOf dims c)) :
    compare (groupOf dims c) (groupOf dims c') ≠ .gt := by
  induction dims with
  | nil => exact nofun
  | cons d rest ih =>
    obtain ⟨hd, hrest⟩ := List.pairwise_cons.mp hdims
    cases hc : c.get? d with
    | some id =>
      rw [groupOf_cons_of_some hc] at h ⊢
      obtain ⟨hfirst, hothers⟩ := List.forall_mem_cons.mp h
      rw [groupOf_cons_of_some hfirst]
      rw [compare_cons, Std.compare_self, Std.compare_self]
      exact ih hrest hothers
    | none =>
      rw [groupOf_cons_of_none hc] at h ⊢
      cases hc' : c'.get? d with
      | none =>
        rw [groupOf_cons_of_none hc']
        exact ih hrest h
      | some id =>
        have hset : d.isAlwaysSet = false := by
          refine Bool.eq_false_iff.mpr fun hset ↦ ?_
          exact Cell.get?_ne_none hset hc
        rw [groupOf_cons_of_some hc', compare_groupOf_cons_eq_lt hset hd hc]
        exact nofun

end PlanLedger
