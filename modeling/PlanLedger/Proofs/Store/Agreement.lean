import PlanLedger.Proofs.Store.Writing

/-!
# Stores that agree on cells

Two stores agree on some cells if every key of such a cell has the same fact in both. A look-up or a
selection depends on the cells that it reaches and on nothing else in the store: where two stores
agree on all cells that a filter and a scope reach, the same facts are read in the same order, and
with them every value and every aggregate is the same.

The numbers of facts are given in the order in which facts are stored, so two stores may hold the
same values under all keys and still have different facts. Then the current facts of a cell have the
same values.
-/

namespace PlanLedger

namespace Store

/-- Two stores have the same facts of the cells of a kind. -/
def AgreeOn (cells : Cell → Prop) (s s' : Store) : Prop :=
  ∀ key : FactKey, cells key.cell → s.find? key = s'.find? key

namespace AgreeOn

variable {cells : Cell → Prop} {s s' s'' : Store}

theorem trans (h : AgreeOn cells s s') (h' : AgreeOn cells s' s'') : AgreeOn cells s s'' :=
  fun key hkey ↦ (h key hkey).trans (h' key hkey)

/-- Stores with the same facts agree on everything. -/
theorem of_facts_eq (h : s.facts = s'.facts) : AgreeOn cells s s' := by
  intro key _
  rw [find?, find?, h]

/-! ## Look-ups -/

theorem currentFact?_eq (h : AgreeOn cells s s') {c : Cell} (hc : cells c) :
    s.currentFact? c = s'.currentFact? c :=
  currentFact?_congr fun b ↦ h (c.inBatch b) hc

theorem currentValue_eq (h : AgreeOn cells s s') {c : Cell} (hc : cells c) :
    s.currentValue c = s'.currentValue c := by
  rw [currentValue, currentValue, h.currentFact?_eq hc]

/-! ## Selections -/

/-- **A selection depends on what it reaches.** It lists the same facts in two stores that agree on
every cell that its filter and its scope reach. -/
theorem selectCurrent_eq (h : AgreeOn cells s s') {f : Filter} {scope : Scope}
    (hreach : ∀ c, f.selects scope c = true → cells c) :
    s.selectCurrent f scope = s'.selectCurrent f scope := by
  -- Both lists increase by cell, so it is enough that they have the same members.
  refine eq_of_increasing (f := Fact.cell) (selectCurrent_increasing s f scope)
    (selectCurrent_increasing s' f scope) fun fact ↦ ?_
  rw [mem_selectCurrent_iff, mem_selectCurrent_iff]
  refine and_congr_left fun hselects ↦ ?_
  have hcurrent := h.currentFact?_eq (hreach _ hselects)
  have hleft : s.currentFact? fact.cell = some fact ↔ _ := currentFact?_eq_some_iff
  have hright : s'.currentFact? fact.cell = some fact ↔ _ := currentFact?_eq_some_iff
  rw [hcurrent] at hleft
  simpa using hleft.symm.trans hright

section

variable {keyFigure : DimId} {f : Filter} {scope : Scope}

theorem get_eq (h : AgreeOn cells s s')
    (hreach : ∀ c, Filter.selects (f.insert .keyFigure keyFigure) scope c = true → cells c) :
    s.get keyFigure f scope = s'.get keyFigure f scope := by
  rw [get, get, currentOf, currentOf, h.selectCurrent_eq hreach]

theorem aggregate?_eq (h : AgreeOn cells s s') (kind : Aggregate)
    (hreach : ∀ c, Filter.selects (f.insert .keyFigure keyFigure) scope c = true → cells c) :
    s.aggregate? kind keyFigure f scope = s'.aggregate? kind keyFigure f scope := by
  rw [aggregate?, aggregate?, currentOf, currentOf, h.selectCurrent_eq hreach]

end

end AgreeOn

/-! ## Values -/

def values? (s : Store) (key : FactKey) : Option FactValues := (s.find? key).map Fact.values

theorem values?_written (s : Store) (key : FactKey) (defaults : FactValues)
    (change : FactValues → FactValues) (key' : FactKey) :
    (s.written key defaults change).values? key' =
      if key' = key then some (change ((s.values? key).getD defaults)) else s.values? key' := by
  rw [values?, values?, values?]
  by_cases h : key' = key
  · rw [if_pos h, h, find?_written_self, Option.map_some, rowFor, find?]
    cases s.facts.get? key <;> rfl
  · rw [if_neg h, find?_written_of_ne s defaults change h]

/-- Stores that hold the same values of a cell have the same current values of it. -/
theorem map_values_currentFact?_congr {s s' : Store} {c : Cell}
    (h : ∀ b, s.values? (c.inBatch b) = s'.values? (c.inBatch b)) :
    (s.currentFact? c).map Fact.values = (s'.currentFact? c).map Fact.values := by
  have hstored (b : BatchId) :
      (s.find? (c.inBatch b)).isSome = (s'.find? (c.inBatch b)).isSome := by
    have hvalues := congrArg Option.isSome (h b)
    rwa [values?, values?, Option.isSome_map, Option.isSome_map] at hvalues
  have hhighest (b : BatchId) : s.HighestBatch c b ↔ s'.HighestBatch c b := by
    simp only [HighestBatch, hstored]
  refine Option.ext fun values ↦ ?_
  simp only [Option.map_eq_some_iff, currentFact?_eq_some_iff, isNewest_iff_find?]
  -- The facts of a batch are found by their values.
  have hfound (t : Store) : (∃ fact, (∃ b, t.HighestBatch c b ∧ t.find? (c.inBatch b) = some fact) ∧
      fact.values = values) ↔ ∃ b, t.HighestBatch c b ∧ t.values? (c.inBatch b) = some values := by
    simp only [values?, Option.map_eq_some_iff]
    constructor
    · rintro ⟨fact, ⟨b, hb, hfind⟩, hvalues⟩
      exact ⟨b, hb, fact, hfind, hvalues⟩
    · rintro ⟨b, hb, fact, hfind, hvalues⟩
      exact ⟨fact, ⟨b, hb, hfind⟩, hvalues⟩
  rw [hfound, hfound]
  simp only [hhighest, h]

end Store

/-! ## What is reached -/

namespace Filter

theorem admits_iff {f : Filter} {c : Cell} :
    f.admits c = true ↔ ∀ d id, f.get? d = some id → c.get? d = some id := by
  simp only [admits, List.all_eq_true, beq_iff_eq, Prod.forall, SortedMap.get?_eq_some_iff]

/-- What is reached within a session: its cells that have all that is asked for, and the period of
the scope, unless a period is asked for. -/
theorem selects_ofSession_iff {f : Filter} {session : SessionId} {period : Option DimId}
    {c : Cell} : f.selects (.ofSession session period) c = true ↔ c.session = session ∧
      (f.get? .period = none → ∀ v, period = some v → c.period = v) ∧
        ∀ d v, f.get? d = some v → c.get? d = some v := by
  rw [selects, Scope.contains, Bool.and_eq_true, Bool.and_eq_true, admits_iff, and_assoc]
  refine and_congr (by simp [Scope.holdsSession, Scope.ofSession]) (and_congr_left' ?_)
  cases period with
  | none => simp [Scope.holdsPeriod, Scope.ofSession]
  | some v =>
    simp only [Scope.holdsPeriod, Scope.ofSession, Bool.or_eq_true, beq_iff_eq,
      SortedMap.contains, Option.isSome_iff_ne_none, Option.some_inj, forall_eq']
    exact imp_iff_not_or.symm

/-- Reading within a session reaches cells of the session only, whatever the filter asks for. -/
theorem session_of_selects {f : Filter} {session : SessionId} {period : Option DimId} {c : Cell}
    (h : f.selects (.ofSession session period) c = true) : c.session = session :=
  (selects_ofSession_iff.mp h).1

theorem get?_of_selects {f : Filter} {scope : Scope} {c : Cell} (h : f.selects scope c = true)
    {d : Dimension} {id : DimId} (hasked : f.get? d = some id) : c.get? d = some id := by
  rw [selects, Bool.and_eq_true] at h
  exact admits_iff.mp h.2 d id hasked

/-- Asking for a key figure reaches cells of the key figure only, whatever else is asked for. -/
theorem keyFigure_of_selects {f : Filter} {keyFigure : DimId} {scope : Scope} {c : Cell}
    (h : selects (f.insert .keyFigure keyFigure) scope c = true) : c.keyFigure = keyFigure :=
  Option.some_inj.mp (get?_of_selects h (f.get?_insert_self .keyFigure keyFigure))

end Filter

end PlanLedger
