import PlanLedger.Proofs.SortedMap.Lookup
import PlanLedger.Store.Reading

/-!
# Current facts

A fact is newest in a list if no fact of its cell in the list is in a newer batch. Reading collects
the newest fact of each cell in one pass over the selected facts, and the facts of a store are told
apart by their keys, so what is collected is exactly the set of newest facts.

A filter and a scope look at cells only. Hence they never separate the facts of one cell, and the
newest among the selected facts of a cell is the newest among all of its facts: no superseded fact
comes back because a newer one was filtered out.
-/

namespace PlanLedger

/-- No fact of the same cell in the list is in a newer batch. -/
structure NewestIn (l : List Fact) (fact : Fact) : Prop where
  mem : fact ∈ l
  newest : ∀ other ∈ l, other.cell = fact.cell → other.key.batch ≤ fact.key.batch

/-- A fact that is added to the list does not supersede a fact of another cell, nor one that it is
not newer than. -/
theorem NewestIn.append_older {l : List Fact} {kept fact : Fact} (h : NewestIn l kept)
    (hle : fact.cell = kept.cell → fact.key.batch ≤ kept.key.batch) :
    NewestIn (l ++ [fact]) kept := by
  refine ⟨List.mem_append_left _ h.mem, fun other hother hcell ↦ ?_⟩
  rcases List.mem_append.mp hother with hother | hother
  · exact h.newest other hother hcell
  · rw [List.mem_singleton.mp hother] at hcell ⊢
    exact hle hcell

namespace Store

/-! ## Stored facts -/

theorem find?_eq_some_iff {s : Store} {key : FactKey} {fact : Fact} :
    s.find? key = some fact ↔ fact ∈ s.allFacts ∧ fact.key = key := by
  rw [find?, Option.map_eq_some_iff, allFacts, List.mem_map]
  constructor
  · rintro ⟨row, hrow, rfl⟩
    exact ⟨⟨(key, row), SortedMap.get?_eq_some_iff.mp hrow, rfl⟩, rfl⟩
  · rintro ⟨⟨⟨key', row⟩, hmem, rfl⟩, rfl⟩
    exact ⟨row, SortedMap.get?_eq_some_iff.mpr hmem, rfl⟩

theorem eq_of_key_eq {s : Store} {a b : Fact} (ha : a ∈ s.allFacts) (hb : b ∈ s.allFacts)
    (h : a.key = b.key) : a = b := by
  have ha : s.find? b.key = some a := find?_eq_some_iff.mpr ⟨ha, h⟩
  have hb : s.find? b.key = some b := find?_eq_some_iff.mpr ⟨hb, rfl⟩
  exact Option.some_inj.mp (ha.symm.trans hb)

/-! ## One pass over a list -/

private theorem newestPerCell_append (l : List Fact) (fact : Fact) :
    newestPerCell (l ++ [fact]) = keepNewest (newestPerCell l) fact := by
  rw [newestPerCell, List.foldl_append]
  rfl

/-- What the pass has collected from a list: the place of a cell holds a newest fact of the cell,
and no cell with a fact lacks a place. -/
structure Collects (m : SortedMap Cell Fact) (l : List Fact) : Prop where
  newest : ∀ c fact, m.get? c = some fact → fact.cell = c ∧ NewestIn l fact
  covers : ∀ fact ∈ l, ∃ kept, m.get? fact.cell = some kept

private theorem Collects.pass {m : SortedMap Cell Fact} {l : List Fact} {fact kept : Fact}
    (h : Collects m l) (hkept : m.get? fact.cell = some kept)
    (hle : fact.key.batch ≤ kept.key.batch) : Collects m (l ++ [fact]) := by
  constructor
  · intro c found hfound
    obtain ⟨rfl, hnewest⟩ := h.newest c found hfound
    refine ⟨rfl, hnewest.append_older fun hcell ↦ ?_⟩
    rw [hcell, hfound, Option.some_inj] at hkept
    rwa [hkept]
  · intro g hg
    rcases List.mem_append.mp hg with hg | hg
    · exact h.covers g hg
    · rw [List.mem_singleton.mp hg]
      exact ⟨kept, hkept⟩

private theorem Collects.take {m : SortedMap Cell Fact} {l : List Fact} {fact : Fact}
    (h : Collects m l)
    (hle : ∀ kept, m.get? fact.cell = some kept → kept.key.batch ≤ fact.key.batch) :
    Collects (m.insert fact.cell fact) (l ++ [fact]) := by
  constructor
  · intro c found hfound
    rw [SortedMap.get?_insert] at hfound
    by_cases hc : c = fact.cell
    · rw [if_pos hc, Option.some_inj] at hfound
      subst hfound
      refine ⟨hc.symm, List.mem_append_right _ List.mem_cons_self, fun g hg hcell ↦ ?_⟩
      rcases List.mem_append.mp hg with hg | hg
      · -- The fact that was in the place is newer than `g` and older than the new one.
        obtain ⟨kept, hkept⟩ := h.covers g hg
        obtain ⟨hsame, hnewest⟩ := h.newest g.cell kept hkept
        exact Nat.le_trans (hnewest.newest g hg hsame.symm) (hle kept (hcell ▸ hkept))
      · exact Nat.le_of_eq (congrArg (·.key.batch) (List.mem_singleton.mp hg))
    · rw [if_neg hc] at hfound
      obtain ⟨rfl, hnewest⟩ := h.newest c found hfound
      exact ⟨rfl, hnewest.append_older fun hcell ↦ absurd hcell.symm hc⟩
  · intro g hg
    rw [SortedMap.get?_insert]
    by_cases hc : g.cell = fact.cell
    · exact ⟨fact, if_pos hc⟩
    · rw [if_neg hc]
      rcases List.mem_append.mp hg with hg | hg
      · exact h.covers g hg
      · exact absurd (congrArg Fact.cell (List.mem_singleton.mp hg)) hc

private theorem Collects.keepNewest {m : SortedMap Cell Fact} {l : List Fact} (h : Collects m l)
    (fact : Fact) : Collects (keepNewest m fact) (l ++ [fact]) := by
  rw [Store.keepNewest]
  cases hplace : m.get? fact.cell with
  | none =>
    refine h.take fun kept hkept ↦ ?_
    rw [hplace] at hkept
    cases hkept
  | some kept =>
    dsimp only
    by_cases hle : fact.key.batch ≤ kept.key.batch
    · rw [if_pos hle]
      exact h.pass hplace hle
    · rw [if_neg hle]
      refine h.take fun kept' hkept' ↦ ?_
      rw [hplace, Option.some_inj] at hkept'
      rw [← hkept']
      exact Nat.le_of_not_le hle

/-- **Loop invariant.** One pass collects the newest fact of every cell in the list. -/
theorem collects_newestPerCell (l : List Fact) : Collects (newestPerCell l) l := by
  -- The pass runs from the front, so the induction adds facts at the end.
  induction l using List.reverseRecOn with
  | nil =>
    constructor
    · intro c fact h
      cases h
    · intro fact h
      cases h
  | append_singleton l fact ih =>
    rw [newestPerCell_append]
    exact ih.keepNewest fact

theorem newestPerCell_increasing (l : List Fact) :
    (newestPerCell l).values.Pairwise fun a b ↦ compare a.cell b.cell = .lt := by
  have hcell : ∀ e ∈ (newestPerCell l).toList, e.2.cell = e.1 := fun e he ↦
    ((collects_newestPerCell l).newest _ _ (SortedMap.get?_eq_some_iff.mpr he)).1
  rw [SortedMap.values, List.pairwise_map]
  refine (newestPerCell l).increasing.imp_of_mem fun {a b} ha hb hab ↦ ?_
  rw [hcell a ha, hcell b hb]
  exact hab

/-! ## Selections of a store -/

/-- A fact of the store that no stored fact of its cell supersedes. -/
def IsNewest (s : Store) (fact : Fact) : Prop := NewestIn s.allFacts fact

/-- Each cell has one newest fact at most. -/
theorem IsNewest.unique {s : Store} {a b : Fact} (ha : s.IsNewest a) (hb : s.IsNewest b)
    (h : a.cell = b.cell) : a = b := by
  have hbatch : a.key.batch = b.key.batch :=
    Nat.le_antisymm (hb.newest a ha.mem h) (ha.newest b hb.mem h.symm)
  refine eq_of_key_eq ha.mem hb.mem ?_
  calc
    a.key = a.cell.inBatch a.key.batch := rfl
    _ = b.cell.inBatch b.key.batch := by rw [h, hbatch]
    _ = b.key := rfl

/-- A selection holds all facts of a cell or none, so it has the same newest facts as the store. -/
theorem newestIn_select_iff {s : Store} {f : Filter} {scope : Scope} {fact : Fact} :
    NewestIn (s.select f scope) fact ↔ s.IsNewest fact ∧ f.selects scope fact.cell = true := by
  simp only [select, IsNewest]
  constructor
  · rintro ⟨hmem, hnewest⟩
    obtain ⟨hmem, hsel⟩ := List.mem_filter.mp hmem
    -- A fact of the same cell is selected as well, as selecting looks at the cell only.
    refine ⟨⟨hmem, fun other hother hcell ↦ ?_⟩, hsel⟩
    exact hnewest other (List.mem_filter.mpr ⟨hother, by rw [hcell]; exact hsel⟩) hcell
  · rintro ⟨⟨hmem, hnewest⟩, hsel⟩
    exact ⟨List.mem_filter.mpr ⟨hmem, hsel⟩, fun other hother ↦
      hnewest other (List.mem_filter.mp hother).1⟩

/-- **Selections hold newest facts.** What a filter and a scope read are the newest facts of the
store whose cells they reach. -/
theorem mem_selectCurrent_iff {s : Store} {f : Filter} {scope : Scope} {fact : Fact} :
    fact ∈ s.selectCurrent f scope ↔ s.IsNewest fact ∧ f.selects scope fact.cell = true := by
  rw [selectCurrent, SortedMap.mem_values_iff]
  constructor
  · rintro ⟨c, hc⟩
    exact newestIn_select_iff.mp ((collects_newestPerCell _).newest c fact hc).2
  · intro h
    have hin := newestIn_select_iff.mpr h
    obtain ⟨kept, hkept⟩ := (collects_newestPerCell _).covers fact hin.mem
    obtain ⟨hcell, hnewest⟩ := (collects_newestPerCell _).newest _ _ hkept
    rw [← (newestIn_select_iff.mp hnewest).1.unique h.1 hcell]
    exact ⟨fact.cell, hkept⟩

theorem selectCurrent_increasing (s : Store) (f : Filter) (scope : Scope) :
    (s.selectCurrent f scope).Pairwise fun a b ↦ compare a.cell b.cell = .lt :=
  newestPerCell_increasing _

theorem exists_isNewest {s : Store} {fact : Fact} (h : fact ∈ s.allFacts) :
    ∃ newest, s.IsNewest newest ∧ newest.cell = fact.cell := by
  obtain ⟨kept, hkept⟩ := (collects_newestPerCell _).covers fact h
  obtain ⟨hcell, hnewest⟩ := (collects_newestPerCell _).newest _ _ hkept
  exact ⟨kept, hnewest, hcell⟩

theorem exists_mem_select_iff {s : Store} {f : Filter} {scope : Scope} {c : Cell} :
    (∃ fact ∈ s.select f scope, fact.cell = c) ↔
      ∃! fact, fact ∈ s.selectCurrent f scope ∧ fact.cell = c := by
  constructor
  · rintro ⟨fact, hmem, rfl⟩
    obtain ⟨hmem, hsel⟩ := List.mem_filter.mp hmem
    obtain ⟨newest, hnewest, hcell⟩ := exists_isNewest hmem
    have hsel' : f.selects scope newest.cell = true := by rw [hcell]; exact hsel
    refine ⟨newest, ⟨mem_selectCurrent_iff.mpr ⟨hnewest, hsel'⟩, hcell⟩, ?_⟩
    rintro other ⟨hother, hsame⟩
    exact (mem_selectCurrent_iff.mp hother).1.unique hnewest (hsame.trans hcell.symm)
  · rintro ⟨fact, ⟨hmem, hcell⟩, -⟩
    exact ⟨fact, (newestIn_select_iff.mpr (mem_selectCurrent_iff.mp hmem)).mem, hcell⟩

theorem selects_empty (c : Cell) : (∅ : Filter).selects {} c = true := rfl

/-- Choosing from all newest facts gives the same as choosing first. -/
theorem selectCurrent_eq_filter (s : Store) (f : Filter) (scope : Scope) :
    s.selectCurrent f scope =
      (s.selectCurrent ∅ {}).filter fun fact ↦ f.selects scope fact.cell := by
  -- Both lists increase by cell, so it is enough that they have the same members.
  refine eq_of_increasing (f := Fact.cell) (selectCurrent_increasing s f scope)
    ((selectCurrent_increasing s ∅ {}).filter _) fun fact ↦ ?_
  rw [List.mem_filter, mem_selectCurrent_iff, mem_selectCurrent_iff]
  constructor
  · intro h
    exact ⟨⟨h.1, selects_empty _⟩, h.2⟩
  · intro h
    exact ⟨h.1.1, h.2⟩

/-! ## The current fact of a cell -/

private theorem selects_own (c : Cell) :
    Filter.selects (.ofList [(.keyFigure, c.keyFigure), (.period, c.period), (.orgUnit, c.orgUnit)])
      (.ofSession c.session) c = true := by
  rw [Filter.selects, Bool.and_eq_true]
  constructor
  · simp [Scope.contains, Scope.holdsSession, Scope.holdsPeriod, Scope.ofSession]
  · rw [Filter.admits, List.all_eq_true]
    intro e he
    have hmem := SortedMap.mem_of_get?_ofList (SortedMap.get?_eq_some_iff.mpr he)
    simp only [List.mem_cons, List.not_mem_nil, or_false] at hmem
    obtain ⟨d, v⟩ := e
    simp only [Prod.mk.injEq] at hmem
    rcases hmem with ⟨rfl, rfl⟩ | ⟨rfl, rfl⟩ | ⟨rfl, rfl⟩ <;> simp [Cell.get?]

theorem currentFact?_eq_some_iff {s : Store} {c : Cell} {fact : Fact} :
    s.currentFact? c = some fact ↔ s.IsNewest fact ∧ fact.cell = c := by
  rw [currentFact?]
  constructor
  · intro h
    have hcell : fact.cell = c := by simpa using List.find?_some h
    exact ⟨(mem_selectCurrent_iff.mp (List.mem_of_find?_eq_some h)).1, hcell⟩
  · rintro ⟨hnewest, rfl⟩
    have hmem := mem_selectCurrent_iff.mpr ⟨hnewest, selects_own fact.cell⟩
    obtain ⟨found, hfound⟩ := Option.isSome_iff_exists.mp
      (List.find?_isSome (p := fun g ↦ g.cell == fact.cell) |>.mpr ⟨fact, hmem, beq_self_eq_true _⟩)
    have hcell : found.cell = fact.cell := by simpa using List.find?_some hfound
    have hfoundNewest := (mem_selectCurrent_iff.mp (List.mem_of_find?_eq_some hfound)).1
    rw [hfound, hfoundNewest.unique hnewest hcell]

theorem currentFact?_eq_none_iff {s : Store} {c : Cell} :
    s.currentFact? c = none ↔ ∀ fact ∈ s.allFacts, fact.cell ≠ c := by
  constructor
  · rintro h fact hmem rfl
    obtain ⟨newest, hnewest⟩ := exists_isNewest hmem
    rw [currentFact?_eq_some_iff.mpr hnewest] at h
    cases h
  · intro h
    refine Option.eq_none_iff_forall_ne_some.mpr fun fact hsome ↦ ?_
    obtain ⟨hnewest, hcell⟩ := currentFact?_eq_some_iff.mp hsome
    exact h fact hnewest.mem hcell

/-- A batch is the highest one that holds a cell. -/
def HighestBatch (s : Store) (c : Cell) (b : BatchId) : Prop :=
  (s.find? (c.inBatch b)).isSome = true ∧ ∀ b', (s.find? (c.inBatch b')).isSome = true → b' ≤ b

theorem isNewest_iff_find? {s : Store} {c : Cell} {fact : Fact} :
    s.IsNewest fact ∧ fact.cell = c ↔
      ∃ b, s.HighestBatch c b ∧ s.find? (c.inBatch b) = some fact := by
  constructor
  · rintro ⟨hnewest, rfl⟩
    have hfind : s.find? (fact.cell.inBatch fact.key.batch) = some fact :=
      find?_eq_some_iff.mpr ⟨hnewest.mem, rfl⟩
    refine ⟨fact.key.batch, ⟨Option.isSome_of_eq_some hfind, fun b' hb' ↦ ?_⟩, hfind⟩
    obtain ⟨other, hother⟩ := Option.isSome_iff_exists.mp hb'
    obtain ⟨hmem, hkey⟩ := find?_eq_some_iff.mp hother
    have hsame : other.cell = fact.cell := by rw [Fact.cell, hkey]; rfl
    have hle := hnewest.newest other hmem hsame
    rwa [hkey] at hle
  · rintro ⟨b, ⟨-, hhighest⟩, hfind⟩
    obtain ⟨hmem, hkey⟩ := find?_eq_some_iff.mp hfind
    have hcell : fact.cell = c := congrArg FactKey.cell hkey
    refine ⟨⟨hmem, fun other hother hsame ↦ ?_⟩, hcell⟩
    have hother : s.find? (c.inBatch other.key.batch) = some other :=
      find?_eq_some_iff.mpr ⟨hother, by rw [← hcell, ← hsame]; rfl⟩
    have hle := hhighest _ (Option.isSome_of_eq_some hother)
    rwa [hkey]

theorem currentFact?_eq_none_iff_find? {s : Store} {c : Cell} :
    s.currentFact? c = none ↔ ∀ b, s.find? (c.inBatch b) = none := by
  rw [currentFact?_eq_none_iff]
  constructor
  · intro h b
    refine Option.eq_none_iff_forall_ne_some.mpr fun fact hsome ↦ ?_
    obtain ⟨hmem, hkey⟩ := find?_eq_some_iff.mp hsome
    exact h fact hmem (congrArg FactKey.cell hkey)
  · rintro h fact hmem rfl
    have hsome : s.find? (fact.cell.inBatch fact.key.batch) = some fact :=
      find?_eq_some_iff.mpr ⟨hmem, rfl⟩
    rw [h] at hsome
    cases hsome

/-- The current fact of a cell depends on nothing but the facts of the cell. -/
theorem currentFact?_congr {s s' : Store} {c : Cell}
    (h : ∀ b, s.find? (c.inBatch b) = s'.find? (c.inBatch b)) :
    s.currentFact? c = s'.currentFact? c := by
  refine Option.ext fun fact ↦ ?_
  rw [currentFact?_eq_some_iff, currentFact?_eq_some_iff, isNewest_iff_find?, isNewest_iff_find?]
  simp only [HighestBatch, h]

/-- **Reads see exactly the newest facts.** A selection lists, strictly increasing by cell, for each
cell that the filter and the scope reach and that has a fact at all, the fact in the highest of all
batches that hold the cell; it is the selection of everything, filtered. The current fact of a cell
is the one in its highest batch, and there is none exactly if no batch holds the cell. -/
theorem selectCurrent_exact (s : Store) (f : Filter) (scope : Scope) :
    ((s.selectCurrent f scope).Pairwise fun a b ↦ compare a.cell b.cell = .lt) ∧
      (∀ fact, fact ∈ s.selectCurrent f scope ↔ f.selects scope fact.cell = true ∧
        ∃ b, s.HighestBatch fact.cell b ∧ s.find? (fact.cell.inBatch b) = some fact) ∧
      (∀ c, (∃ fact ∈ s.select f scope, fact.cell = c) ↔
        ∃! fact, fact ∈ s.selectCurrent f scope ∧ fact.cell = c) ∧
      s.selectCurrent f scope =
        (s.selectCurrent ∅ {}).filter (fun fact ↦ f.selects scope fact.cell) ∧
      (∀ c fact, s.currentFact? c = some fact ↔
        ∃ b, s.HighestBatch c b ∧ s.find? (c.inBatch b) = some fact) ∧
      ∀ c, s.currentFact? c = none ↔ ∀ b, s.find? (c.inBatch b) = none := by
  refine ⟨selectCurrent_increasing s f scope, fun fact ↦ ?_, fun c ↦ exists_mem_select_iff,
    selectCurrent_eq_filter s f scope, fun c fact ↦ ?_, fun c ↦ currentFact?_eq_none_iff_find?⟩
  · rw [mem_selectCurrent_iff, ← isNewest_iff_find?]
    constructor
    · intro h
      exact ⟨h.2, h.1, rfl⟩
    · intro h
      exact ⟨h.2.1, h.1⟩
  · rw [currentFact?_eq_some_iff, isNewest_iff_find?]

end Store

end PlanLedger
