import PlanLedger.Proofs.Store.Invariant

/-!
# Reachable stores

Everything that can be asked of a store is a call, and a refused call leaves the store as it was. A
store is reachable if calls lead to it from the empty store. Calls are edits, or they begin or end a
unit of work; all of them keep stores well-formed.
-/

namespace PlanLedger

/-- What can be asked of a store. -/
inductive StoreCall where
  | createSession (session : Session)
  | insertSession (id : SessionId) (session : Session)
  | findOrCreateSession (version year : DimId)
  | createBatch (batch : Batch)
  | ensureBatch (session : SessionId)
  /-- Asks for the row of a key and then changes its values in any way. -/
  | update (key : FactKey) (defaults : FactValues) (change : FactValues → FactValues)
  | put (key : FactKey) (values : FactValues)
  | deleteWhere (f : Filter) (scope : Scope)
  | beginUnit
  | commitUnit
  | rollbackUnit

/-- Whether a call begins or ends a unit of work. -/
def StoreCall.isUnit : StoreCall → Bool
  | .beginUnit => true
  | .commitUnit => true
  | .rollbackUnit => true
  | _ => false

namespace Store

/-- The store that a call leads to, if it is not refused. -/
def call (s : Store) : StoreCall → Except StoreError Store
  | .createSession session => .ok (s.createSession session).2
  | .insertSession id session => s.insertSession id session
  | .findOrCreateSession version year => .ok (s.findOrCreateSession version year).2
  | .createBatch batch => (s.createBatch batch).map (·.2)
  | .ensureBatch session => (s.ensureBatch session).map (·.2)
  | .update key defaults change => s.update key defaults change
  | .put key values => (s.put key values).map (·.2)
  | .deleteWhere f scope => .ok (s.deleteWhere f scope)
  | .beginUnit => s.beginUnit
  | .commitUnit => s.commitUnit
  | .rollbackUnit => s.rollbackUnit

def after (s : Store) (c : StoreCall) : Store :=
  match s.call c with
  | .ok s' => s'
  | .error _ => s

/-- A store that calls lead to from the empty one. -/
inductive Reachable : Store → Prop
  | empty : Reachable ∅
  | call {s : Store} (h : Reachable s) (c : StoreCall) : Reachable (s.after c)

theorem Reachable.calls {s : Store} (h : Reachable s) (calls : List StoreCall) :
    Reachable (calls.foldl after s) := by
  induction calls generalizing s with
  | nil => exact h
  | cons c rest ih => exact ih (h.call c)

/-! ## Units of work -/

theorem WellFormed.beginUnit {s s' : Store} (hs : s.WellFormed) (h : s.beginUnit = .ok s') :
    s'.WellFormed := by
  rw [Store.beginUnit] at h
  cases hsaved : s.saved with
  | some c =>
    rw [hsaved] at h
    cases h
  | none =>
    rw [hsaved] at h
    cases h
    refine ⟨hs.contents, fun c hc ↦ ?_⟩
    rw [← Option.some_inj.mp hc]
    exact hs.contents

theorem WellFormed.commitUnit {s s' : Store} (hs : s.WellFormed) (h : s.commitUnit = .ok s') :
    s'.WellFormed := by
  rw [Store.commitUnit] at h
  cases hsaved : s.saved with
  | some c =>
    rw [hsaved] at h
    cases h
    refine ⟨hs.contents, fun c hc ↦ ?_⟩
    cases hc
  | none =>
    rw [hsaved] at h
    cases h

theorem WellFormed.rollbackUnit {s s' : Store} (hs : s.WellFormed) (h : s.rollbackUnit = .ok s') :
    s'.WellFormed := by
  rw [Store.rollbackUnit] at h
  cases hsaved : s.saved with
  | some c =>
    rw [hsaved] at h
    cases h
    refine ⟨hs.saved c hsaved, fun c' hc' ↦ ?_⟩
    cases hc'
  | none =>
    rw [hsaved] at h
    cases h

/-! ## All calls -/

theorem edit_call {s s' : Store} {c : StoreCall} (hunit : c.isUnit = false)
    (h : s.call c = .ok s') : Edit s s' := by
  cases c with
  | createSession session =>
    cases h
    exact s.edit_createSession session
  | insertSession id session => exact edit_insertSession h
  | findOrCreateSession version year =>
    cases h
    exact s.edit_findOrCreateSession version year
  | createBatch batch =>
    obtain ⟨⟨id, s'⟩, hcreate, rfl⟩ := map_eq_ok.mp h
    exact edit_createBatch hcreate
  | ensureBatch session =>
    obtain ⟨⟨found, s'⟩, hensure, rfl⟩ := map_eq_ok.mp h
    exact edit_ensureBatch hensure
  | update key defaults change => exact edit_update h
  | put key values =>
    obtain ⟨⟨id, s'⟩, hput, rfl⟩ := map_eq_ok.mp h
    exact edit_put hput
  | deleteWhere f scope =>
    cases h
    exact .delete f scope
  | beginUnit => cases hunit
  | commitUnit => cases hunit
  | rollbackUnit => cases hunit

theorem WellFormed.call {s s' : Store} (hs : s.WellFormed) {c : StoreCall}
    (h : s.call c = .ok s') : s'.WellFormed := by
  cases c with
  | beginUnit => exact hs.beginUnit h
  | commitUnit => exact hs.commitUnit h
  | rollbackUnit => exact hs.rollbackUnit h
  | _ => exact hs.edit (edit_call rfl h)

theorem WellFormed.after {s : Store} (hs : s.WellFormed) (c : StoreCall) :
    (s.after c).WellFormed := by
  rw [Store.after]
  cases h : s.call c with
  | ok s' => exact hs.call h
  | error e => exact hs

theorem Reachable.wellFormed {s : Store} (h : s.Reachable) : s.WellFormed := by
  induction h with
  | empty => exact wellFormed_empty
  | call _ c ih => exact ih.after c

end Store

end PlanLedger
