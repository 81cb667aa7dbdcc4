import PlanLedger.Proofs.Store.Agreement

/-!
# Stores that read alike

What a reader sees of a cell are the values of its current fact; neither the number of the fact nor
the batch it lies in shows. Two stores read alike if they show the same values of every cell. A
selection lists the cells that it reaches by their order, so in stores that read alike it lists the
same cells with the same values, and every look-up and every aggregate is the same.

The facts of a batch are compared in the same way: batches that hold the same values of every cell
list the same cells with the same values.
-/

namespace PlanLedger

/-- What is seen of a fact: its cell and its values. -/
def Fact.reading (fact : Fact) : Cell × FactValues := (fact.cell, fact.values)

namespace Store

/-- The values of the current fact of a cell. -/
def currentValues? (s : Store) (c : Cell) : Option FactValues :=
  (s.currentFact? c).map Fact.values

/-- What a selection shows: cells with their values. -/
def readings (s : Store) (f : Filter) (scope : Scope) : List (Cell × FactValues) :=
  (s.selectCurrent f scope).map Fact.reading

/-- The facts of a batch, in the order of their cells. -/
def factsIn (s : Store) (batch : BatchId) : List Fact :=
  s.allFacts.filter fun fact ↦ fact.key.batch == batch

variable {s s' s'' : Store}

theorem IsNewest.currentValues?_eq {fact : Fact} (h : s.IsNewest fact) :
    s.currentValues? fact.cell = some fact.values := by
  rw [currentValues?, currentFact?_eq_some_iff.mpr ⟨h, rfl⟩, Option.map_some]

theorem currentValues?_of_facts (h : s.facts = s'.facts) (c : Cell) :
    s.currentValues? c = s'.currentValues? c := by
  have hagree : AgreeOn (fun _ ↦ True) s s' := .of_facts_eq h
  rw [currentValues?, currentValues?, hagree.currentFact?_eq trivial]

/-! ## Selections -/

theorem mem_readings_iff {f : Filter} {scope : Scope} {c : Cell} {values : FactValues} :
    (c, values) ∈ s.readings f scope ↔
      s.currentValues? c = some values ∧ f.selects scope c = true := by
  rw [readings, List.mem_map, currentValues?, Option.map_eq_some_iff]
  constructor
  · rintro ⟨fact, hfact, hreading⟩
    obtain ⟨rfl, rfl⟩ := Prod.mk.inj hreading
    obtain ⟨hnewest, hselects⟩ := mem_selectCurrent_iff.mp hfact
    exact ⟨⟨fact, currentFact?_eq_some_iff.mpr ⟨hnewest, rfl⟩, rfl⟩, hselects⟩
  · rintro ⟨⟨fact, hfact, rfl⟩, hselects⟩
    obtain ⟨hnewest, rfl⟩ := currentFact?_eq_some_iff.mp hfact
    exact ⟨fact, mem_selectCurrent_iff.mpr ⟨hnewest, hselects⟩, rfl⟩

theorem readings_increasing (s : Store) (f : Filter) (scope : Scope) :
    (s.readings f scope).Pairwise fun a b ↦ compare a.1 b.1 = .lt :=
  List.pairwise_map.mpr (selectCurrent_increasing s f scope)

theorem map_value_selectCurrent (s : Store) (f : Filter) (scope : Scope) :
    (s.selectCurrent f scope).map Fact.value =
      (s.readings f scope).map fun reading ↦ reading.2.value := by
  rw [readings, List.map_map]
  rfl

/-- Two stores show the same values of every cell. -/
def ReadsAlike (s s' : Store) : Prop := ∀ c, s'.currentValues? c = s.currentValues? c

namespace ReadsAlike

theorem refl (s : Store) : ReadsAlike s s := fun _ ↦ rfl

theorem trans (h : ReadsAlike s s') (h' : ReadsAlike s' s'') : ReadsAlike s s'' :=
  fun c ↦ (h' c).trans (h c)

theorem of_facts_eq (h : s'.facts = s.facts) : ReadsAlike s s' := currentValues?_of_facts h

/-- **Selections.** Stores that read alike list the same cells in the same order with the same
values, whatever the filter and the scope. -/
theorem readings_eq (h : ReadsAlike s s') (f : Filter) (scope : Scope) :
    s'.readings f scope = s.readings f scope := by
  -- Both lists increase by cell, so it is enough that they have the same members.
  refine eq_of_increasing (f := Prod.fst) (readings_increasing s' f scope)
    (readings_increasing s f scope) fun reading ↦ ?_
  rw [mem_readings_iff, mem_readings_iff, h]

theorem get_eq (h : ReadsAlike s s') (keyFigure : DimId) (f : Filter) (scope : Scope) :
    s'.get keyFigure f scope = s.get keyFigure f scope := by
  rw [get, get, ← List.head?_map, ← List.head?_map, currentOf, currentOf, map_value_selectCurrent,
    map_value_selectCurrent, h.readings_eq]

theorem aggregate?_eq (h : ReadsAlike s s') (kind : Aggregate) (keyFigure : DimId) (f : Filter)
    (scope : Scope) :
    s'.aggregate? kind keyFigure f scope = s.aggregate? kind keyFigure f scope := by
  rw [aggregate?, aggregate?, currentOf, currentOf, map_value_selectCurrent,
    map_value_selectCurrent, h.readings_eq]

end ReadsAlike

/-! ## Batches -/

theorem batchFacts_eq_ok {batch : BatchId} {facts : List Fact}
    (h : s.batchFacts batch = .ok facts) : facts = s.factsIn batch := by
  rw [batchFacts] at h
  split_ifs at h
  exact (Except.ok.inj h).symm

theorem mem_factsIn_iff {batch : BatchId} {fact : Fact} :
    fact ∈ s.factsIn batch ↔ fact ∈ s.allFacts ∧ fact.key.batch = batch := by
  rw [factsIn, List.mem_filter, beq_iff_eq]

theorem factsIn_increasing (s : Store) (batch : BatchId) :
    (s.factsIn batch).Pairwise fun a b ↦ compare a.cell b.cell = .lt := by
  have hkeys : s.allFacts.Pairwise fun a b ↦ compare a.key b.key = .lt :=
    List.pairwise_map.mpr s.facts.increasing
  refine (hkeys.filter _).imp_of_mem fun {a b} ha hb hlt ↦ ?_
  -- Keys of one batch are compared by their cells.
  have hbatch : a.key.batch = b.key.batch :=
    (mem_factsIn_iff.mp ha).2.trans (mem_factsIn_iff.mp hb).2.symm
  have hcompare : compare a.key b.key = (compare a.key.batch b.key.batch).then
    (compare a.cell b.cell) := rfl
  rw [hcompare, hbatch, Std.compare_self] at hlt
  exact hlt

theorem mem_map_reading_factsIn_iff {batch : BatchId} {c : Cell} {values : FactValues} :
    (c, values) ∈ (s.factsIn batch).map Fact.reading ↔
      s.values? (c.inBatch batch) = some values := by
  rw [List.mem_map, values?, Option.map_eq_some_iff]
  constructor
  · rintro ⟨fact, hfact, hreading⟩
    obtain ⟨rfl, rfl⟩ := Prod.mk.inj hreading
    obtain ⟨hmem, rfl⟩ := mem_factsIn_iff.mp hfact
    exact ⟨fact, find?_eq_some_iff.mpr ⟨hmem, rfl⟩, rfl⟩
  · rintro ⟨fact, hfact, rfl⟩
    obtain ⟨hmem, hkey⟩ := find?_eq_some_iff.mp hfact
    refine ⟨fact, mem_factsIn_iff.mpr ⟨hmem, congrArg FactKey.batch hkey⟩, ?_⟩
    rw [Fact.reading, Fact.cell, hkey]
    rfl

/-- Batches that hold the same values of every cell list the same cells with the same values. -/
theorem map_reading_factsIn_congr {batch batch' : BatchId}
    (h : ∀ c : Cell, s'.values? (c.inBatch batch') = s.values? (c.inBatch batch)) :
    (s'.factsIn batch').map Fact.reading = (s.factsIn batch).map Fact.reading := by
  refine eq_of_increasing (f := Prod.fst) (List.pairwise_map.mpr (s'.factsIn_increasing batch'))
    (List.pairwise_map.mpr (s.factsIn_increasing batch)) fun reading ↦ ?_
  rw [mem_map_reading_factsIn_iff, mem_map_reading_factsIn_iff, h]

end Store

end PlanLedger
