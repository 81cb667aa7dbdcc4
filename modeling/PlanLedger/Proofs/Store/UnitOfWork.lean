import PlanLedger.Proofs.Store.Reachable

/-!
# Units of work

A unit of work carries a second copy of the contents, saved when it began. No call but those that
begin or end a unit looks at the copy: with another copy in place the call does the same, is refused
alike, and hands the copy on. Hence work in a unit is the work without the unit, carried out beside
the copy. A roll-back finds the copy untouched and a commit has only to forget it.
-/

namespace PlanLedger

def StoreCall.endsUnit : StoreCall → Bool
  | .commitUnit => true
  | .rollbackUnit => true
  | _ => false

def StoreCall.beginsUnit : StoreCall → Bool
  | .beginUnit => true
  | _ => false

theorem StoreCall.isUnit_eq (c : StoreCall) : c.isUnit = (c.beginsUnit || c.endsUnit) := by
  cases c <;> rfl

namespace Store

variable {s : Store}

/-! ## Calls beside a saved copy -/

theorem createBatch_withSaved (s : Store) (saved : Option Contents) (batch : Batch) :
    { s with saved }.createBatch batch =
      (s.createBatch batch).map fun r ↦ (r.1, { r.2 with saved }) := by
  rw [createBatch_eq, createBatch_eq]
  show (s.session batch.session).map _ = _
  cases s.session batch.session <;> rfl

theorem ensureBatch_withSaved (s : Store) (saved : Option Contents) (session : SessionId) :
    { s with saved }.ensureBatch session =
      (s.ensureBatch session).map fun r ↦ (r.1, { r.2 with saved }) := by
  have hlatest : { s with saved }.latestBatch session = s.latestBatch session := rfl
  rw [ensureBatch, ensureBatch, hlatest]
  cases s.latestBatch session with
  | error err => rfl
  | ok latest =>
    cases latest with
    | some found => rfl
    | none =>
      rw [ok_bind, ok_bind]
      dsimp only
      rw [createBatch_withSaved]
      cases s.createBatch _ <;> rfl

theorem findOrCreateSession_withSaved (s : Store) (saved : Option Contents) (version year : DimId) :
    ({ s with saved }.findOrCreateSession version year).2 =
      { (s.findOrCreateSession version year).2 with saved } := by
  have hfind : { s with saved }.findSession? version year = s.findSession? version year := rfl
  rw [findOrCreateSession, findOrCreateSession, hfind]
  cases s.findSession? version year <;> rfl

theorem insertSession_withSaved (s : Store) (saved : Option Contents) (id : SessionId)
    (session : Session) :
    { s with saved }.insertSession id session =
      (s.insertSession id session).map fun r ↦ { r with saved } := by
  rw [insertSession, insertSession]
  cases s.sessions.contains id <;> rfl

theorem update_withSaved (s : Store) (saved : Option Contents) (key : FactKey)
    (defaults : FactValues) (change : FactValues → FactValues) :
    { s with saved }.update key defaults change =
      (s.update key defaults change).map fun r ↦ { r with saved } := by
  have hcheck : { s with saved }.checkKey key = s.checkKey key := rfl
  rw [update_eq, update_eq, hcheck]
  cases s.checkKey key <;> rfl

theorem put_withSaved (s : Store) (saved : Option Contents) (key : FactKey) (values : FactValues) :
    { s with saved }.put key values = (s.put key values).map fun r ↦ (r.1, { r.2 with saved }) := by
  have hcheck : { s with saved }.checkKey key = s.checkKey key := rfl
  rw [put_eq, put_eq, hcheck]
  cases s.checkKey key <;> rfl

/-- A call that does not begin or end a unit of work does the same beside any saved copy. -/
theorem call_withSaved (s : Store) (saved : Option Contents) {c : StoreCall}
    (h : c.isUnit = false) :
    { s with saved }.call c = (s.call c).map fun r ↦ { r with saved } := by
  cases c with
  | createSession session => rfl
  | insertSession id session => exact insertSession_withSaved s saved id session
  | findOrCreateSession version year =>
    exact congrArg Except.ok (findOrCreateSession_withSaved s saved version year)
  | createBatch batch =>
    rw [call, call, createBatch_withSaved]
    cases s.createBatch batch <;> rfl
  | ensureBatch session =>
    rw [call, call, ensureBatch_withSaved]
    cases s.ensureBatch session <;> rfl
  | update key defaults change => exact update_withSaved s saved key defaults change
  | put key values =>
    rw [call, call, put_withSaved]
    cases s.put key values <;> rfl
  | deleteWhere f scope => rfl
  | beginUnit => cases h
  | commitUnit => cases h
  | rollbackUnit => cases h

theorem after_withSaved (s : Store) (saved : Option Contents) {c : StoreCall}
    (h : c.isUnit = false) : { s with saved }.after c = { s.after c with saved } := by
  rw [after, after, call_withSaved s saved h]
  cases s.call c <;> rfl

theorem saved_after (s : Store) {c : StoreCall} (h : c.isUnit = false) :
    (s.after c).saved = s.saved := by
  rw [after]
  cases hcall : s.call c with
  | ok s' => exact (edit_call h hcall).saved_eq
  | error err => rfl

/-! ## Beginning and ending -/

theorem inUnit_eq_false_iff : s.inUnit = false ↔ s.saved = none := by
  rw [inUnit, Option.isSome_eq_false_iff, Option.isNone_iff_eq_none]

theorem beginUnit_of_inUnit (h : s.inUnit = true) : s.beginUnit = .error .unitActive := by
  obtain ⟨contents, hsaved⟩ := Option.isSome_iff_exists.mp h
  rw [beginUnit, hsaved]

theorem beginUnit_of_free (h : s.inUnit = false) :
    s.beginUnit = .ok { s with saved := some s.toContents } := by
  rw [beginUnit, inUnit_eq_false_iff.mp h]

theorem commitUnit_of_free (h : s.inUnit = false) : s.commitUnit = .error .noUnit := by
  rw [commitUnit, inUnit_eq_false_iff.mp h]

theorem rollbackUnit_of_free (h : s.inUnit = false) : s.rollbackUnit = .error .noUnit := by
  rw [rollbackUnit, inUnit_eq_false_iff.mp h]

theorem rollbackUnit_of_saved {worked : Store} (h : s.inUnit = false)
    (hsaved : worked.saved = some s.toContents) : worked.rollbackUnit = .ok s := by
  rw [rollbackUnit, hsaved, ← inUnit_eq_false_iff.mp h]

theorem commitUnit_of_inUnit (h : s.inUnit = true) :
    s.commitUnit = .ok { s with saved := none } := by
  obtain ⟨contents, hsaved⟩ := Option.isSome_iff_exists.mp h
  rw [commitUnit, hsaved]

theorem after_of_error {c : StoreCall} {err : StoreError} (h : s.call c = .error err) :
    s.after c = s := by
  rw [after, h]

theorem dropUnit_of_rollbackUnit {s' : Store} (h : s.rollbackUnit = .ok s') : s.dropUnit = s' := by
  rw [dropUnit, h]

/-! ## A whole unit -/

/-- The calls of a unit of work, less those that begin another one. -/
def unitWork (calls : List StoreCall) : List StoreCall := calls.filter fun c ↦ !c.beginsUnit

/-- Work in a unit is the work without the unit, carried out beside the saved copy. -/
theorem foldl_after_withSaved (contents : Contents) {calls : List StoreCall}
    (h : ∀ c ∈ calls, c.endsUnit = false) (s : Store) :
    calls.foldl after { s with saved := some contents } =
      { (unitWork calls).foldl after s with saved := some contents } := by
  induction calls generalizing s with
  | nil => rfl
  | cons c rest ih =>
    obtain ⟨hc, hrest⟩ := List.forall_mem_cons.mp h
    rw [List.foldl_cons]
    cases hbegin : c.beginsUnit with
    | true =>
      -- Another unit is refused, so this call does nothing.
      have hrefused : { s with saved := some contents }.after c =
          { s with saved := some contents } := by
        have hactive : { s with saved := some contents }.inUnit = true := rfl
        cases c with
        | beginUnit => exact after_of_error (c := .beginUnit) (beginUnit_of_inUnit hactive)
        | _ => cases hbegin
      rw [hrefused, ih hrest s, unitWork, unitWork, List.filter_cons_of_neg (by simp [hbegin])]
    | false =>
      have hunit : c.isUnit = false := by rw [StoreCall.isUnit_eq, hbegin, hc]; rfl
      rw [after_withSaved s _ hunit, ih hrest (s.after c), unitWork, unitWork,
        List.filter_cons_of_pos (by simp [hbegin]), List.foldl_cons]

theorem saved_foldl_unitWork {calls : List StoreCall} (h : ∀ c ∈ calls, c.endsUnit = false)
    (s : Store) : ((unitWork calls).foldl after s).saved = s.saved := by
  have hwork : ∀ c ∈ unitWork calls, c.isUnit = false := by
    intro c hc
    obtain ⟨hmem, hbegin⟩ := List.mem_filter.mp hc
    rw [StoreCall.isUnit_eq, h c hmem, Bool.or_false]
    simpa using hbegin
  generalize unitWork calls = work at hwork
  induction work generalizing s with
  | nil => rfl
  | cons c rest ih =>
    obtain ⟨hc, hrest⟩ := List.forall_mem_cons.mp hwork
    rw [List.foldl_cons, ih (s.after c) hrest, saved_after s hc]

/-- **Units of work are atomic.** In a store without a unit, a unit can be begun. After any calls in
it that do not end it, refused ones and attempts to begin another unit included, a roll-back brings
back the store as it was before the unit, as does leaving the unit open; a commit leaves the store
that the same calls lead to without a unit. Beginning a unit within one is refused, and so is ending
one where there is none; either changes nothing. -/
theorem unit_atomic {s : Store} (hfree : s.inUnit = false) {calls : List StoreCall}
    (hcalls : ∀ c ∈ calls, c.endsUnit = false) :
    (∃ opened worked kept, s.beginUnit = .ok opened ∧ worked = calls.foldl after opened ∧
      worked.rollbackUnit = .ok s ∧ worked.dropUnit = s ∧
      worked.commitUnit = .ok kept ∧ kept = (unitWork calls).foldl after s ∧
      kept.inUnit = false) ∧
    (∀ t : Store, t.inUnit = true →
      t.beginUnit = .error .unitActive ∧ t.after .beginUnit = t) ∧
    ∀ t : Store, t.inUnit = false →
      t.commitUnit = .error .noUnit ∧ t.after .commitUnit = t ∧
      t.rollbackUnit = .error .noUnit ∧ t.after .rollbackUnit = t ∧ t.dropUnit = t := by
  refine ⟨⟨_, _, (unitWork calls).foldl after s, beginUnit_of_free hfree, rfl, ?_⟩,
    fun t ht ↦ ⟨beginUnit_of_inUnit ht, after_of_error (beginUnit_of_inUnit ht)⟩, fun t ht ↦ ?_⟩
  · have hkept : ((unitWork calls).foldl after s).saved = none :=
      (saved_foldl_unitWork hcalls s).trans (inUnit_eq_false_iff.mp hfree)
    rw [foldl_after_withSaved _ hcalls]
    generalize (unitWork calls).foldl after s = kept at hkept ⊢
    have hback : { kept with saved := some s.toContents }.rollbackUnit = .ok s :=
      rollbackUnit_of_saved hfree rfl
    refine ⟨hback, dropUnit_of_rollbackUnit hback, ?_, rfl, inUnit_eq_false_iff.mpr hkept⟩
    rw [commitUnit_of_inUnit rfl, ← hkept]
  · have hrollback := rollbackUnit_of_free ht
    refine ⟨commitUnit_of_free ht, after_of_error (commitUnit_of_free ht), hrollback,
      after_of_error hrollback, ?_⟩
    rw [dropUnit, hrollback]

/-- Calls of every kind but those that end a unit: a session with a fact, a fact in a batch that
there is not, a second session under the same number, another unit, and a deletion. -/
private def sampleWork : List StoreCall :=
  let c : Cell :=
    { session := 1, version := 1, year := 1, period := 1, orgUnit := 1, keyFigure := 1 }
  let key := c.inBatch 1
  [.createSession { version := 1, year := 1 }, .ensureBatch 1, .put key {},
    .put { key with batch := 2 } {}, .beginUnit, .insertSession 1 { version := 1, year := 2 },
    .findOrCreateSession 1 2, .createBatch { session := 2, action := .delta },
    .update key {} fun values ↦ values, .deleteWhere ∅ {}, .put key {}]

/-- In the empty store such a unit stores a fact under the number two, and a roll-back takes it and
its number back. -/
theorem unit_atomic_sampleWork : ∃ opened worked : Store,
    (∅ : Store).beginUnit = .ok opened ∧ worked = sampleWork.foldl after opened ∧
      worked.lastFact = 2 ∧ worked.facts.size = 1 ∧ worked.lastSession = 2 ∧
      worked.lastBatch = 2 ∧ worked.rollbackUnit = .ok ∅ := by
  have hcalls : ∀ c ∈ sampleWork, c.endsUnit = false := by decide
  obtain ⟨⟨opened, worked, kept, hbegin, hworked, hback, -⟩, -⟩ :=
    unit_atomic (s := ∅) rfl hcalls
  refine ⟨opened, worked, hbegin, hworked, ?_, ?_, ?_, ?_, hback⟩ <;>
  · rw [hworked, ← Except.ok.inj hbegin]
    decide

end Store

end PlanLedger
