import PlanLedger.Proofs.Planning.Distribution

/-!
# Look-ups and their sources

A look-up reads the current facts that its source asks for, with its own filters laid over those of
the source. Where both ask for a value on one dimension, the filter of the look-up takes the place
of that of the source. So filters narrow a source as long as they do not contradict it: then the
look-up aggregates exactly those facts of the source that have the values it asks for. A look-up
that contradicts its source has nothing to find there, and what it reads instead are facts that the
source leaves out. On the key figure it is the other way round, since a look-up always reads the key
figure of its source, whatever it asks for itself.

The groups of a distribution are looked up in the same way, by the values of the group.
-/

namespace PlanLedger

/-- Two filters ask for the same value wherever both ask for one. -/
def Filter.Agrees (f f' : Filter) : Prop :=
  ∀ d id id', f.get? d = some id → f'.get? d = some id' → id = id'

/-- A cell that two filters admit has the values that both ask for. -/
theorem Filter.agrees_of_admits {f f' : Filter} {c : Cell} (h : f.admits c = true)
    (h' : f'.admits c = true) : f.Agrees f' := fun d _ _ hid hid' ↦
  Option.some.inj ((admits_iff.mp h d _ hid).symm.trans (admits_iff.mp h' d _ hid'))

namespace Formula

/-- What a look-up in reference data aggregates. -/
structure LookUp where
  kind : Aggregate
  keyFigure : DimId
  /-- What the source asks for beside its key figure. -/
  source : Filter
  /-- What the look-up asks for itself. -/
  upper : Filter
deriving DecidableEq

namespace LookUp

/-- The look-up in the same source that asks for nothing itself. -/
def bare (l : LookUp) : LookUp := { l with upper := ∅ }

def own (l : LookUp) : Filter := l.source.insert .keyFigure l.keyFigure

def filter (l : LookUp) : Filter := (l.source.merged l.upper).insert .keyFigure l.keyFigure

def facts (l : LookUp) (s : Store) : List Fact :=
  s.currentOf l.keyFigure (l.source.merged l.upper) {}

/-- The aggregate, unless a sum does not fit. -/
def total? (l : LookUp) (s : Store) : Option Decimal :=
  l.kind.ofValues? ((l.facts s).map Fact.value)

variable {l : LookUp} {s : Store} {c : Cell} {d : Dimension} {fact : Fact}

theorem get?_own : l.own.get? d =
    if d = .keyFigure then some l.keyFigure else l.source.get? d := SortedMap.get?_insert _ _ _ _

theorem get?_filter : l.filter.get? d =
    if d = .keyFigure then some l.keyFigure else (l.upper.get? d).or (l.source.get? d) := by
  rw [filter, SortedMap.get?_insert, Filter.merged, SortedMap.get?_overlay]

theorem filter_bare (l : LookUp) : l.bare.filter = l.own := rfl

theorem mem_facts_iff : fact ∈ l.facts s ↔ s.IsNewest fact ∧ l.filter.admits fact.cell = true :=
  Store.mem_selectCurrent_iff

/-- A cell that has all that both ask for has all that the look-up is made with. -/
theorem admits_filter (hown : l.own.admits c = true) (hupper : l.upper.admits c = true) :
    l.filter.admits c = true := by
  rw [Filter.admits_iff] at hown hupper ⊢
  intro d id hid
  rw [get?_filter] at hid
  split_ifs at hid with hd
  · exact hown d id (by rw [get?_own, if_pos hd, hid])
  · rcases Option.or_eq_some_iff.mp hid with hasked | ⟨-, hsource⟩
    · exact hupper d id hasked
    · exact hown d id (by rw [get?_own, if_neg hd, hsource])

/-- Where the look-up does not contradict the source, it is made with all that both ask for. -/
theorem admits_of_agrees (h : l.own.Agrees l.upper) (hfilter : l.filter.admits c = true) :
    l.own.admits c = true ∧ l.upper.admits c = true := by
  simp only [Filter.admits_iff] at hfilter ⊢
  constructor
  · intro d id hid
    refine hfilter d id ?_
    rw [get?_filter]
    by_cases hd : d = .keyFigure
    · rw [if_pos hd, ← hid, get?_own, if_pos hd]
    · have hsource := hid
      rw [get?_own, if_neg hd] at hsource
      rw [if_neg hd, hsource]
      cases hasked : l.upper.get? d with
      | none => rfl
      | some id' => rw [h d id id' hid hasked, Option.some_or]
  · intro d id hid
    refine hfilter d id ?_
    rw [get?_filter]
    by_cases hd : d = .keyFigure
    · rw [if_pos hd, h d l.keyFigure id (by rw [get?_own, if_pos hd]) hid]
    · rw [if_neg hd, hid, Option.some_or]

/-- The facts of the source that have the values the look-up asks for are those that it reads which
have all that both ask for. -/
theorem filter_facts_bare (l : LookUp) (s : Store) :
    (l.bare.facts s).filter (fun fact ↦ l.upper.admits fact.cell) =
      (l.facts s).filter (fun fact ↦ l.own.admits fact.cell && l.upper.admits fact.cell) := by
  -- Both lists increase by cell, so it is enough that they have the same members.
  refine eq_of_increasing (f := Fact.cell) ((Store.selectCurrent_increasing _ _ _).filter _)
    ((Store.selectCurrent_increasing _ _ _).filter _) fun fact ↦ ?_
  rw [List.mem_filter, List.mem_filter, mem_facts_iff, mem_facts_iff, filter_bare, Bool.and_eq_true]
  constructor
  · rintro ⟨⟨hnewest, hown⟩, hupper⟩
    exact ⟨⟨hnewest, admits_filter hown hupper⟩, hown, hupper⟩
  · rintro ⟨⟨hnewest, -⟩, hown, hupper⟩
    exact ⟨⟨hnewest, hown⟩, hupper⟩

/-- A look-up narrows its source exactly if it does not contradict it, or reads nothing anyway. -/
theorem facts_eq_filter_iff (l : LookUp) (s : Store) :
    l.facts s = (l.bare.facts s).filter (fun fact ↦ l.upper.admits fact.cell) ↔
      l.own.Agrees l.upper ∨ l.facts s = [] := by
  rw [filter_facts_bare, eq_comm, List.filter_eq_self]
  constructor
  · intro hall
    refine or_iff_not_imp_right.mpr fun hne ↦ ?_
    obtain ⟨fact, hfact⟩ := List.exists_mem_of_ne_nil _ hne
    obtain ⟨hown, hupper⟩ := Bool.and_eq_true_iff.mp (hall fact hfact)
    exact Filter.agrees_of_admits hown hupper
  · rintro (hagrees | hnil) fact hfact
    · exact Bool.and_eq_true_iff.mpr (admits_of_agrees hagrees (mem_facts_iff.mp hfact).2)
    · rw [hnil] at hfact
      exact absurd hfact List.not_mem_nil

/-- A look-up that asks for another value than its source, on a dimension other than the key figure,
reads facts that the source leaves out. -/
theorem not_mem_facts_bare {id id' : DimId} (hd : d ≠ .keyFigure) (hsource : l.own.get? d = some id)
    (hasked : l.upper.get? d = some id') (hne : id ≠ id') (hfact : fact ∈ l.facts s) :
    fact ∉ l.bare.facts s := by
  intro hbare
  have hfilter : l.filter.get? d = some id' := by
    rw [get?_filter, if_neg hd, hasked, Option.some_or]
  have hvalue := Filter.admits_iff.mp (mem_facts_iff.mp hfact).2 d id' hfilter
  have hpinned := Filter.admits_iff.mp (mem_facts_iff.mp hbare).2 d id hsource
  exact hne (Option.some.inj (hpinned.symm.trans hvalue))

/-- A look-up that asks for another key figure than its source reads the key figure of the
source. -/
theorem admits_eq_false_of_keyFigure {id : DimId} (hasked : l.upper.get? .keyFigure = some id)
    (hne : id ≠ l.keyFigure) (hfact : fact ∈ l.facts s) : l.upper.admits fact.cell = false := by
  rw [Bool.eq_false_iff]
  intro hupper
  have hvalue := Filter.admits_iff.mp (mem_facts_iff.mp hfact).2 .keyFigure l.keyFigure get?_filter
  have hwanted := Filter.admits_iff.mp hupper .keyFigure id hasked
  exact hne (Option.some.inj (hwanted.symm.trans hvalue))

end LookUp

namespace ReferenceContext

variable {x : ReferenceContext} {b : Bindings} {call : ReferenceCall} {v : Decimal}

/-- What a look-up aggregates, if all of its names are found. -/
def lookUp (x : ReferenceContext) (b : Bindings) (call : ReferenceCall) :
    Except FormulaError LookUp := do
  let data ← x.catalog.reference call.name
  let keyFigure ← ofRegistry (x.registry.resolve .keyFigure data.keyFigure)
  let source ← x.sourceFilter data
  let upper ← resolveFilters x.registry b call.filters
  return { kind := data.kind, keyFigure, source, upper }

theorem value_eq_ok_iff : x.value b call = .ok v ↔
    ∃ l, x.lookUp b call = .ok l ∧ l.total? x.store = some v := by
  simp only [value, lookUp, bind_eq_ok]
  constructor
  · rintro ⟨data, hdata, keyFigure, hkeyFigure, source, hsource, upper, hupper, hvalue⟩
    refine ⟨⟨data.kind, keyFigure, source, upper⟩, ⟨data, hdata, keyFigure, hkeyFigure, source,
      hsource, upper, hupper, rfl⟩, ?_⟩
    split at hvalue
    · cases hvalue
      assumption
    · cases hvalue
  · rintro ⟨l, ⟨data, hdata, keyFigure, hkeyFigure, source, hsource, upper, hupper, hl⟩, htotal⟩
    cases hl
    refine ⟨data, hdata, keyFigure, hkeyFigure, source, hsource, upper, hupper, ?_⟩
    rw [Store.aggregate?]
    rw [LookUp.total?, LookUp.facts] at htotal
    rw [htotal]
    rfl

/-- The look-up in the same source without filters aggregates all that the source asks for. -/
theorem lookUp_bare {l : LookUp} (h : x.lookUp b call = .ok l) :
    x.lookUp b { call with filters := [] } = .ok l.bare := by
  simp only [lookUp, bind_eq_ok] at h ⊢
  obtain ⟨data, hdata, keyFigure, hkeyFigure, source, hsource, upper, -, hl⟩ := h
  cases hl
  exact ⟨data, hdata, keyFigure, hkeyFigure, source, hsource, ∅, rfl, rfl⟩

/-- **Filters of a look-up.** A look-up that has a value is made with the filter of its source and
its own. The facts of the source that have the values it asks for are among those that it
aggregates, namely those of them that have all that both ask for. They are all that it aggregates
exactly if it contradicts the source nowhere, or if it aggregates nothing. If it contradicts the
source on a dimension other than the key figure, it aggregates facts that the source leaves out and
no others; if it asks for another key figure, no fact that it aggregates has what it asks for. -/
theorem value_narrows_iff (h : x.value b call = .ok v) :
    ∃ l, x.lookUp b call = .ok l ∧ l.total? x.store = some v ∧
      x.lookUp b { call with filters := [] } = .ok l.bare ∧
      (l.bare.facts x.store).filter (fun fact ↦ l.upper.admits fact.cell) =
        (l.facts x.store).filter
          (fun fact ↦ l.own.admits fact.cell && l.upper.admits fact.cell) ∧
      (l.facts x.store = (l.bare.facts x.store).filter (fun fact ↦ l.upper.admits fact.cell) ↔
        l.own.Agrees l.upper ∨ l.facts x.store = []) ∧
      (∀ d id id', d ≠ .keyFigure → l.own.get? d = some id → l.upper.get? d = some id' → id ≠ id' →
        ∀ fact ∈ l.facts x.store, fact ∉ l.bare.facts x.store) ∧
      ∀ id, l.upper.get? .keyFigure = some id → id ≠ l.keyFigure →
        ∀ fact ∈ l.facts x.store, l.upper.admits fact.cell = false := by
  obtain ⟨l, hl, htotal⟩ := value_eq_ok_iff.mp h
  refine ⟨l, hl, htotal, lookUp_bare hl, l.filter_facts_bare x.store, l.facts_eq_filter_iff x.store,
    ?_, ?_⟩
  · intro d id id' hd hsource hasked hne fact hfact
    exact LookUp.not_mem_facts_bare hd hsource hasked hne hfact
  · intro id hasked hne fact hfact
    exact LookUp.admits_eq_false_of_keyFigure hasked hne hfact

/-- A source that asks for the first org unit, and a fact of each of two. -/
def pinnedContext : ReferenceContext where
  store := Engine.smallStore
  registry := ⟨.ofList [(.orgUnit, Engine.masterListWith ["O1", "O2"]),
    (.keyFigure, Engine.masterListWith ["REV"])]⟩
  catalog :=
    { references := .ofList
        [("Home", { name := "Home", keyFigure := "REV", filter := .ofList [("OrgUnit", "O1")] })] }

/-- A look-up in the source that asks for the second org unit. -/
def otherCall : ReferenceCall := { name := "Home", filters := [⟨.orgUnit, .code "O2"⟩] }

private def otherLookUp : LookUp where
  kind := .sum
  keyFigure := 1
  source := .ofList [(.orgUnit, 1)]
  upper := .ofList [(.orgUnit, 2)]

private theorem lookUp_otherCall : pinnedContext.lookUp ∅ otherCall = .ok otherLookUp := by
  decide +kernel

/-- What the look-up reads is no part of its source. -/
theorem value_narrows_iff_pinnedContext :
    pinnedContext.value ∅ otherCall = .ok Engine.twenty ∧
      ∃ l, pinnedContext.lookUp ∅ otherCall = .ok l ∧
        l.total? pinnedContext.store = some Engine.twenty ∧
        ∀ fact ∈ l.facts pinnedContext.store, fact ∉ l.bare.facts pinnedContext.store := by
  have hvalue : pinnedContext.value ∅ otherCall = .ok Engine.twenty := by decide +kernel
  obtain ⟨l, hl, htotal, -, -, -, hcontradicts, -⟩ := value_narrows_iff hvalue
  refine ⟨hvalue, l, hl, htotal, ?_⟩
  obtain rfl := Except.ok.inj (hl.symm.trans lookUp_otherCall)
  exact hcontradicts .orgUnit 1 2 (by decide) (by decide) (by decide) (by decide)

/-- The source holds `10`, on the first org unit. With a filter on the second one the look-up has
the value `20`, from a fact outside the source, although no fact of the source is on the second org
unit. -/
theorem lookUp_leaves_source :
    pinnedContext.store.Reachable ∧
      pinnedContext.value ∅ { otherCall with filters := [] } = .ok Engine.ten ∧
      pinnedContext.value ∅ otherCall = .ok Engine.twenty ∧
      ∃ l, pinnedContext.lookUp ∅ otherCall = .ok l ∧
        pinnedContext.lookUp ∅ { otherCall with filters := [] } = .ok l.bare ∧
        (l.bare.facts pinnedContext.store).filter (fun fact ↦ l.upper.admits fact.cell) = [] ∧
        l.facts pinnedContext.store ≠ [] :=
  ⟨Engine.reachable_smallStore, by decide +kernel, by decide +kernel, otherLookUp, lookUp_otherCall,
    lookUp_bare lookUp_otherCall, by decide +kernel, by decide +kernel⟩

end ReferenceContext

end Formula

end PlanLedger
