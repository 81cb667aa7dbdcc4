import PlanLedger.Proofs.Planning.Runs

/-!
# Reachable engines

An engine is set up over a store that calls lead to and over any ledger. From then on its store can
be called directly, sessions and facts can be loaded, formulas and planning functions can be run,
and the engine can be taken apart and set up again with other master data. The store of an engine
that is reached in this way is well-formed.
-/

namespace PlanLedger

/-- What can be asked of an engine. -/
inductive EngineCall where
  | onStore (call : StoreCall)
  | createSession (name version year : String) (orgUnit : Option String)
  | loadFact (c : Cell) (values : FactValues)
  | setUp (registry : Registry) (catalog : Formula.Catalog) (options : Options)
  | run (call : RunCall)

namespace Engine

def after (e : Engine) : EngineCall → Engine
  | .onStore call => { e with store := e.store.after call }
  | .createSession name version year orgUnit =>
    match e.createSession name version year orgUnit with
    | .ok (_, e') => e'
    | .error _ => e
  | .loadFact c values =>
    match e.loadFact c values with
    | .ok (_, e') => e'
    | .error _ => e
  | .setUp registry catalog options => { e with registry, catalog, options }
  | .run call => (e.perform call).2

/-- An engine that calls lead to from one over a reachable store. -/
inductive Reachable : Engine → Prop
  | new {store : Store} (h : store.Reachable) (ledger : Ledger) (registry : Registry)
      (catalog : Formula.Catalog) (options : Options) :
      Reachable { store, ledger, registry, catalog, options }
  | call {e : Engine} (h : Reachable e) (c : EngineCall) : Reachable (e.after c)

/-! ## The store of a reachable engine -/

/-- A session is created if its codes are known, and then it is added to the store. -/
theorem createSession_eq_ok {e e' : Engine} {name version year : String} {orgUnit : Option String}
    {id : SessionId} {session : Session}
    (h : e.createSession name version year orgUnit = .ok ((id, session), e')) :
    e.resolve .version version = .ok session.version ∧ e.resolve .year year = .ok session.year ∧
      e.resolveOption .orgUnit orgUnit = .ok session.orgUnit ∧
      e' = { e with store := e.store.withSession (e.store.lastSession + 1) session } := by
  rw [createSession] at h
  obtain ⟨versionId, hversion, h⟩ := bind_eq_ok.mp h
  obtain ⟨yearId, hyear, h⟩ := bind_eq_ok.mp h
  obtain ⟨unitId, hunit, h⟩ := bind_eq_ok.mp h
  dsimp only at h
  rw [Store.createSession_eq] at h
  cases h
  exact ⟨hversion, hyear, hunit, rfl⟩

theorem loadFact_eq_ok {e e' : Engine} {c : Cell} {values : FactValues} {id : FactId}
    (h : e.loadFact c values = .ok (id, e')) : ∃ found s,
      e.store.ensureBatch c.session = .ok (found, s) ∧ s.checkKey (c.inBatch found.1) = .ok () ∧
      e' = { e with store := s.written (c.inBatch found.1) values fun _ ↦ values } := by
  rw [loadFact] at h
  obtain ⟨⟨found, s⟩, hensure, h⟩ := bind_eq_ok.mp h
  obtain ⟨⟨fact, s'⟩, hput, h⟩ := bind_eq_ok.mp h
  cases h
  obtain ⟨hcheck, rfl⟩ := Store.put_eq_ok (PlanningError.ofStore_eq_ok.mp hput)
  exact ⟨found, s, PlanningError.ofStore_eq_ok.mp hensure, hcheck, rfl⟩

/-- A session is created by one edit of the store, which is the only change of the engine. -/
theorem edit_of_createSession {e e' : Engine} {name version year : String}
    {orgUnit : Option String} {created : SessionId × Session}
    (h : e.createSession name version year orgUnit = .ok (created, e')) :
    Store.Edit e.store e'.store ∧ e'.ledger = e.ledger := by
  obtain ⟨-, -, -, rfl⟩ := createSession_eq_ok h
  exact ⟨.addSession _ _ (.inl rfl), rfl⟩

/-- A fact is loaded by two edits of the store, which are the only change of the engine. -/
theorem editedTo_of_loadFact {e e' : Engine} {c : Cell} {values : FactValues} {id : FactId}
    (h : e.loadFact c values = .ok (id, e')) :
    Store.EditedTo e.store e'.store ∧ e'.ledger = e.ledger := by
  obtain ⟨found, s, hensure, hcheck, rfl⟩ := loadFact_eq_ok h
  have hwrite : Store.Edit s (s.written (c.inBatch found.1) values fun _ ↦ values) :=
    .write (c.inBatch found.1) values _ hcheck
  exact ⟨.tail (.single (Store.edit_ensureBatch hensure)) hwrite, rfl⟩

theorem wellFormed_perform {e : Engine} (h : e.store.WellFormed) (call : RunCall) :
    (e.perform call).2.store.WellFormed := by
  have hcall := e.performed call
  generalize (e.perform call).1 = result at hcall
  generalize (e.perform call).2 = e' at hcall ⊢
  cases hcall with
  | refused err _ => exact h
  | failed err _ _ fails =>
    rw [fails.same.store]
    exact h
  | done _ _ _ _ _ wellFormed => exact wellFormed h

theorem Reachable.wellFormed {e : Engine} (h : e.Reachable) : e.store.WellFormed := by
  induction h with
  | new h => exact h.wellFormed
  | @call e _ c ih =>
    cases c with
    | onStore call => exact ih.after call
    | createSession name version year orgUnit =>
      rw [after]
      split
      · exact ih.edit (edit_of_createSession ‹_›).1
      · exact ih
    | loadFact c values =>
      rw [after]
      split
      · exact ih.editedTo (editedTo_of_loadFact ‹_›).1
      · exact ih
    | setUp registry catalog options => exact ih
    | run call => exact wellFormed_perform ih call

/-! ## A small plan -/

private def masterListOf (code : String) : MasterList :=
  { values := .ofList [(1, { id := 1, code })], byCode := .ofList [(code, 1)] }

/-- A master list with some values, numbered from one on. -/
def masterListWith (codes : List String) : MasterList where
  values := .ofList (codes.zipIdx.map fun p ↦ (p.2 + 1, { id := p.2 + 1, code := p.1 }))
  byCode := .ofList (codes.zipIdx.map fun p ↦ (p.1, p.2 + 1))

def ten : Decimal := { Decimal.zero with mantissa := 10, mantissa_lt := by decide }

def twenty : Decimal := { Decimal.zero with mantissa := 20, mantissa_lt := by decide }

def smallCell (orgUnit : DimId) : Cell :=
  { session := 1, version := 1, year := 1, period := 1, orgUnit, keyFigure := 1 }

/-- Two sessions, of which the first one has two facts in a batch and the second one has no
batch. -/
def smallStore : Store :=
  ((((Store.after ∅ (.createSession { version := 1, year := 1, orgUnit := some 1 })).after
    (.createSession { version := 1, year := 1, orgUnit := some 1 })).after
      (.createBatch { session := 1, action := .delta })).after
        (.put ((smallCell 1).inBatch 1) { value := ten })).after
          (.put ((smallCell 2).inBatch 1) { value := twenty })

def smallPlan : Engine where
  store := smallStore
  registry := ⟨.ofList [(.orgUnit, masterListOf "O1"), (.period, masterListOf "01"),
    (.year, masterListOf "2024"), (.version, masterListOf "P0"), (.keyFigure, masterListOf "REV")]⟩

theorem reachable_smallStore : smallStore.Reachable :=
  ((((Store.Reachable.empty.call _).call _).call _).call _).call _

theorem reachable_smallPlan : smallPlan.Reachable := .new reachable_smallStore _ _ _ _

end Engine

end PlanLedger
