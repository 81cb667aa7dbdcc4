import PlanLedger.Proofs.Formula.Expansion
import PlanLedger.Proofs.Formula.Range
import PlanLedger.Proofs.Planning.Outcome
import PlanLedger.Proofs.Planning.Reachable

/-!
# Which runs are broken off

Reading and expanding a formula, finding its session and its combinations, and finding the cell that
it assigns are never broken off. So a run of a formula is broken off exactly if the first
combination without an entry comes to a total or a rounding that leaves the range of decimal
numbers; and the distribution of totals is exactly if the total of a group leaves it, as the store
is when the turn of the group comes. Sharing a total out fails in no such way: what overflows there
is reported.
-/

namespace PlanLedger

open Formula (Bindings CellRef FormulaError Statement)
open PlanningError (ofFormula ofRegistry ofStore)

/-! ## What is never broken off -/

section

variable {α : Type}

theorem PlanningError.avoids_ofFormula {result : Except FormulaError α}
    (h : Avoids .outOfRange result) : Avoids (.formula .outOfRange) (ofFormula result) := by
  cases result with
  | ok a => exact .ok a
  | error err =>
    refine .error fun heq ↦ ?_
    cases heq
    exact h rfl

theorem PlanningError.ofFormula_eq_error {result : Except FormulaError α} {err : FormulaError} :
    ofFormula result = .error (.formula err) ↔ result = .error err := by
  cases result <;> simp [ofFormula]

theorem PlanningError.avoids_ofRegistry (result : Except DimensionError α) :
    Avoids (.formula .outOfRange) (ofRegistry result) :=
  avoids_ofFormula (Formula.avoids_ofRegistry result)

theorem PlanningError.avoids_ofStore (result : Except StoreError α) (e : FormulaError) :
    Avoids (.formula e) (ofStore result) := by
  cases result with
  | ok a => exact .ok a
  | error err => exact .error (by simp)

end

namespace Formula

theorem avoids_readWith {α : Type} (read : List Lexeme → Except ParseError α)
    (subFormula : Option String) (text : String) :
    Avoids .outOfRange (readWith read subFormula text) := by
  rw [readWith]
  dsimp only
  split
  · exact .ok _
  · rename_i err _
    refine .error ?_
    cases err <;> simp [ParseError.located]

variable {c : Catalog} {r : Registry}

theorem CellRef.avoids_expand (ref : CellRef) : Avoids .outOfRange (ref.expand r) := by
  refine .bind ?_ fun _ ↦ (avoids_ofRegistry _).bind fun _ ↦ .ok _
  cases ref.keyFigure with
  | code text => exact (avoids_ofRegistry _).bind fun _ ↦ .ok _
  | id id => exact .ok _
  | loop => exact .error (by simp)

theorem avoids_expandLeaf {openName : String → Except FormulaError Expr}
    (h : ∀ name, Avoids .outOfRange (openName name)) (leaf : Expr) :
    Avoids .outOfRange (expandLeaf c r openName leaf) := by
  cases leaf with
  | subFormula name => exact h name
  | constant name =>
    refine .bind ?_ fun _ ↦ .ok _
    rw [Catalog.constant]
    split
    · exact .ok _
    · exact .error (by simp)
  | cell ref => exact (CellRef.avoids_expand ref).bind fun _ ↦ .ok _
  | reference call =>
    exact (c.avoids_reference call.name).bind fun _ ↦ (avoids_ofRegistry _).bind fun _ ↦ .ok _
  | _ => exact .ok _

theorem avoids_body (name : String) : Avoids .outOfRange (c.body name) := by
  refine .bind ?_ fun text ↦ avoids_readWith _ _ text
  rw [Catalog.subFormula]
  split
  · exact .ok _
  · exact .error (by simp)

theorem Expr.avoids_bindLeaves {f : Expr → Except FormulaError Expr}
    (h : ∀ leaf, Avoids .outOfRange (f leaf)) (e : Expr) : Avoids .outOfRange (e.bindLeaves f) := by
  intro herr
  obtain ⟨leaf, -, -, hleaf⟩ := exists_leaf_of_bindLeaves_eq_error herr
  exact h leaf hleaf

/-- An expansion is never broken off. -/
theorem avoids_expandWithin (limit room : Nat) (followed : List String) (e : Expr) :
    Avoids .outOfRange (expandWithin c r limit room followed e) := by
  induction room generalizing followed e with
  | zero =>
    rw [expandWithin]
    refine Expr.avoids_bindLeaves (avoids_expandLeaf fun name ↦ ?_) e
    split <;> exact .error (by simp)
  | succ room ih =>
    rw [expandWithin]
    refine Expr.avoids_bindLeaves (avoids_expandLeaf fun name ↦ ?_) e
    split
    · exact .error (by simp)
    · exact (avoids_body name).bind fun body ↦ ih _ body

theorem Statement.avoids_expand (limit : Nat) (s : Statement) :
    Avoids .outOfRange (s.expand c r limit) := by
  rw [expand]
  split
  · exact .error (by simp)
  · exact (CellRef.avoids_expand _).bind fun _ ↦ (avoids_expandWithin _ _ _ _).bind fun _ ↦ .ok _

end Formula

theorem avoids_target (r : Registry) (x : RunFrame) (b : Bindings) (ref : CellRef) :
    Avoids .outOfRange (target r x b ref) := by
  refine (Formula.DimFilter.avoids_resolve r b _).bind fun keyFigure ↦
    (Formula.avoids_resolvePairs r b _).bind fun pairs ↦ ?_
  dsimp only
  split
  · exact .ok _
  · exact .error (by simp)

namespace Engine

variable (e : Engine)

theorem avoids_resolveOption (d : Dimension) (text : Option String) :
    Avoids (.formula .outOfRange) (e.resolveOption d text) := by
  cases text with
  | none => exact .ok _
  | some text => exact (PlanningError.avoids_ofRegistry _).bind fun _ ↦ .ok _

theorem avoids_validate (err : FormulaError) : Avoids (.formula err) e.options.validate := by
  rw [Options.validate]
  split_ifs
  · exact .error (by simp)
  · exact .error (by simp)
  · exact .ok ()

theorem avoids_compile (f : PlanFormula) : Avoids (.formula .outOfRange) (e.compile f) := by
  refine (PlanningError.avoids_ofFormula (Formula.avoids_readWith _ _ _)).bind fun _ ↦
    (PlanningError.avoids_ofFormula (Statement.avoids_expand _ _)).bind fun statement ↦
      (Avoids.foldlM (fun loops name ↦ ?_) _ _).bind fun loops ↦ ?_
  · refine (PlanningError.avoids_ofRegistry _).bind fun d ↦ ?_
    split_ifs
    · exact .error (by simp)
    · exact .ok _
  · dsimp only
    split
    · exact .error (by simp)
    · exact .ok _

theorem avoids_plan (f : PlanFormula) (request : RunRequest) :
    Avoids (.formula .outOfRange) (e.plan f request) :=
  (e.avoids_validate _).bind fun _ ↦ (e.avoids_compile f).bind fun _ ↦
    (PlanningError.avoids_ofStore _ _).bind fun _ ↦ (e.avoids_resolveOption _ _).bind fun _ ↦
      (PlanningError.avoids_ofRegistry _).bind fun _ ↦ .ok _

/-! ## Runs of formulas -/

/-- What the look-ups of a formula are read from. -/
def lookUpContext (f : PlanFormula) : Formula.ReferenceContext :=
  { store := e.store, registry := e.registry, catalog := e.catalog,
    version := f.referenceVersion, year := f.referenceYear }

/-- What a formula is evaluated against for a combination. -/
def evaluationContext (p : RunPlan) (b : Bindings) : Formula.Context :=
  { store := e.store, registry := e.registry, scope := p.frame.scope, bindings := b }

/-- The value of a combination leaves the range: the total of a look-up does, where those before it
have values, or with the values in place of the look-ups the evaluation comes to an aggregate or a
rounding that does. -/
def ValueLeavesRange (f : PlanFormula) (p : RunPlan) (b : Bindings) : Prop :=
  let x := e.lookUpContext f
  let expr := p.compiled.statement.expr
  (∃ before call after values, Formula.ReferenceContext.lookUps expr = before ++ call :: after ∧
    before.mapM (x.value b) = .ok values ∧ x.LeavesRange b call) ∨
  ∃ prepared n, x.substitute b expr = .ok prepared ∧
    prepared.Reaches (e.evaluationContext p b) n ∧ n.LeavesRange (e.evaluationContext p b)

/-- A combination has a cell to assign and a value for it. -/
def HasEntry (f : PlanFormula) (p : RunPlan) (b : Bindings) : Prop :=
  ∃ assigned value, target e.registry p.frame b p.compiled.statement.target = .ok assigned ∧
    e.combinationValue e.store f p b = .ok value

/-- The combinations before one have entries, and the value of that one leaves the range. -/
def RunLeavesRange (f : PlanFormula) (p : RunPlan) : Prop :=
  ∃ before b after, p.combinations = before ++ b :: after ∧ (∀ b' ∈ before, e.HasEntry f p b') ∧
    (∃ assigned, target e.registry p.frame b p.compiled.statement.target = .ok assigned) ∧
    e.ValueLeavesRange f p b

variable {e} {f : PlanFormula} {request : RunRequest} {p : RunPlan}

/-- The value of a combination is that of the formula with the values in place of its look-ups. -/
theorem combinationValue_eq (hp : e.Plans f request p) (b : Bindings) :
    e.combinationValue e.store f p b = (do
      let prepared ← (e.lookUpContext f).substitute b p.compiled.statement.expr
      prepared.evaluateScalar (e.evaluationContext p b) e.options.scale) := by
  rw [combinationValue, hp.compiles.hasReferences]
  by_cases hreferences : p.compiled.statement.expr.hasReferences = true
  · rw [if_pos hreferences]
    rfl
  · rw [if_neg hreferences,
      Formula.ReferenceContext.substitute_eq_self (Bool.eq_false_iff.mpr hreferences)]
    rfl

theorem combinationValue_eq_outOfRange_iff (hp : e.Plans f request p) {b : Bindings} :
    e.combinationValue e.store f p b = .error .outOfRange ↔ e.ValueLeavesRange f p b := by
  rw [combinationValue_eq hp, bind_eq_error, ValueLeavesRange,
    Formula.ReferenceContext.substitute_eq_outOfRange_iff]
  simp only [Formula.evaluateScalar_eq_outOfRange_iff, exists_and_left]

theorem combinationEntry_eq_outOfRange_iff (hp : e.Plans f request p) (batch : BatchId)
    {b : Bindings} : e.combinationEntry e.store f p batch b = .error .outOfRange ↔
      (∃ assigned, target e.registry p.frame b p.compiled.statement.target = .ok assigned) ∧
        e.ValueLeavesRange f p b := by
  rw [combinationEntry, (avoids_target _ _ _ _).bind_eq_error_iff,
    ← combinationValue_eq_outOfRange_iff hp, ← exists_and_right]
  refine exists_congr fun assigned ↦ and_congr_right fun _ ↦ ?_
  exact bind_return_eq_error

theorem exists_combinationEntry_iff {batch : BatchId} {b : Bindings} :
    (∃ entry, e.combinationEntry e.store f p batch b = .ok entry) ↔ e.HasEntry f p b := by
  constructor
  · rintro ⟨entry, h⟩
    obtain ⟨assigned, htarget, h⟩ := bind_eq_ok.mp h
    obtain ⟨value, hvalue, -⟩ := bind_eq_ok.mp h
    exact ⟨assigned, value, htarget, hvalue⟩
  · rintro ⟨assigned, value, htarget, hvalue⟩
    exact ⟨_, bind_eq_ok.mpr ⟨assigned, htarget, bind_eq_ok.mpr ⟨value, hvalue, rfl⟩⟩⟩

/-- The entries of a run are broken off exactly if the value of a combination leaves the range and
those before it have entries. -/
theorem entries_eq_outOfRange_iff (hp : e.Plans f request p) (batch : BatchId) :
    p.combinations.mapM (e.combinationEntry e.store f p batch) = .error .outOfRange ↔
      e.RunLeavesRange f p := by
  rw [mapM_eq_error_iff, RunLeavesRange]
  refine exists_congr fun before ↦ exists_congr fun b ↦ exists_congr fun after ↦ ?_
  simp only [exists_and_left, exists_and_right, exists_mapM_eq_ok_iff,
    exists_combinationEntry_iff, combinationEntry_eq_outOfRange_iff hp]

theorem runFormula_eq_outOfRange_of_plan (hplan : e.plan f request = .ok p)
    (hfree : e.store.inUnit = false) :
    (e.runFormula f request).1 = .error (.formula .outOfRange) ↔ e.RunLeavesRange f p := by
  obtain ⟨batch, stored, s, -, houtcome⟩ := exists_outcome hplan hfree
  rw [← entries_eq_outOfRange_iff (plan_eq_ok hplan) batch]
  generalize (e.runFormula f request).1 = result at houtcome ⊢
  generalize (e.runFormula f request).2 = after at houtcome
  cases houtcome with
  | failed err _ heq => simp [heq]
  | full entries _ heq => simp [heq]
  | done entries ledger heq => simp [heq]

/-- A run of a formula is broken off exactly if it is prepared, outside of a unit of work, and the
value of a combination leaves the range. -/
theorem runFormula_eq_outOfRange_iff :
    (e.runFormula f request).1 = .error (.formula .outOfRange) ↔
      ∃ p, e.plan f request = .ok p ∧ e.store.inUnit = false ∧ e.RunLeavesRange f p := by
  cases hplan : e.plan f request with
  | error err =>
    refine iff_of_false (fun h ↦ ?_) ?_
    · simp only [runFormula, hplan] at h
      rw [Except.error.inj h] at hplan
      exact e.avoids_plan f request hplan
    · rintro ⟨_, h, _⟩
      cases h
  | ok p =>
    by_cases hactive : e.store.inUnit = true
    · rw [runFormula_of_active hplan hactive]
      refine iff_of_false (Avoids.error (by simp)) ?_
      rintro ⟨_, -, hfree, -⟩
      cases hactive.symm.trans hfree
    · have hfree := Bool.eq_false_iff.mpr hactive
      rw [runFormula_eq_outOfRange_of_plan hplan hfree]
      constructor
      · intro h
        exact ⟨p, rfl, hfree, h⟩
      · rintro ⟨_, ⟨⟩, -, h⟩
        exact h

end Engine

/-! ## Distributing totals -/

section

variable {x : WorkContext} {err : FormulaError}

open Working (run_store_bind_eq_error run_lift_bind_eq_error run_tallyOver_eq_error)

/-- Where a result that does not depend on the books is not refused with an error, only the work
after it can be. -/
theorem run_lift_bind_of_avoids {α β : Type} {result : Except PlanningError α} {e : PlanningError}
    (h : Avoids e result) {f : α → Working β} {b b' : Books} :
    (liftM result >>= f).run b = .error e b' ↔ ∃ a, result = .ok a ∧ (f a).run b = .error e b' := by
  rw [run_lift_bind_eq_error]
  exact or_iff_right fun herr ↦ h herr.1

theorem avoids_change (fact : Fact) (f : FactValues → FactValues) :
    Working.Avoids (.formula err) (x.change fact f) :=
  (Working.Avoids.onStore _ fun _ h ↦ by cases h).bind fun _ ↦
    (Working.Avoids.record _ _ fun _ h ↦ by cases h).bind fun _ ↦ .pure _

theorem avoids_rescaleGroup (total base : Decimal) (facts : List Fact) :
    Working.Avoids (.formula err) (rescaleGroup x total base facts) :=
  (Working.Avoids.tallyOver (fun _ ↦ avoids_change _ _) _).bind fun _ ↦ .pure _

def WorkContext.lookUpContext (x : WorkContext) (s : Store) : Formula.ReferenceContext :=
  { store := s, registry := x.registry, catalog := x.catalog }

variable {b b' : Books} {reference : String}

theorem distributeGroup_eq_outOfRange_iff {group : GroupKey × List Fact} :
    (distributeGroup x reference group).run b = .error (.formula .outOfRange) b' ↔
      (x.lookUpContext b.store).LeavesRange ∅ (groupCall reference group.1) ∧ b = b' := by
  rw [distributeGroup, run_store_bind_eq_error]
  dsimp only
  rw [run_lift_bind_eq_error, PlanningError.ofFormula_eq_error,
    ← Formula.ReferenceContext.value_eq_outOfRange_iff]
  refine or_iff_left ?_
  rintro ⟨total, -, h⟩
  revert h
  split
  · exact Working.Avoids.pure _ b b'
  · split_ifs
    · exact Working.Avoids.pure _ b b'
    · exact avoids_rescaleGroup _ _ _ b b'

/-- The total of a group leaves the range, as the store is when the turn of the group comes. -/
def DistributionLeavesRange (x : WorkContext) (groupBy : List String) (reference : String)
    (b b' : Books) : Prop :=
  ∃ data keyFigure dims before group after tally,
    x.catalog.reference reference = .ok data ∧
    x.registry.resolve .keyFigure data.keyFigure = .ok keyFigure ∧
    List.Forall₂ (fun name d ↦ x.registry.dimension name = .ok d) groupBy dims ∧
    (groupFacts dims (b.store.currentOf keyFigure ∅ x.scope)).toList = before ++ group :: after ∧
    (tallyOver (distributeGroup x reference) before).run b = .ok tally b' ∧
    (x.lookUpContext b'.store).LeavesRange ∅ (groupCall reference group.1)

theorem distribute_eq_outOfRange_iff {groupBy : List String} :
    (distribute x groupBy reference).run b = .error (.formula .outOfRange) b' ↔
      DistributionLeavesRange x groupBy reference b b' := by
  have hdata : Avoids (.formula .outOfRange) (ofFormula (x.catalog.reference reference)) :=
    PlanningError.avoids_ofFormula (x.catalog.avoids_reference reference)
  have hdims : Avoids (.formula .outOfRange)
      (groupBy.mapM fun name ↦ ofRegistry (x.registry.dimension name)) :=
    .mapM (fun _ ↦ PlanningError.avoids_ofRegistry _) groupBy
  simp only [distribute, DistributionLeavesRange, run_lift_bind_of_avoids hdata,
    run_lift_bind_of_avoids (PlanningError.avoids_ofRegistry _), Working.mapM_lift,
    run_lift_bind_of_avoids hdims, run_store_bind_eq_error, run_tallyOver_eq_error,
    distributeGroup_eq_outOfRange_iff, PlanningError.ofFormula_eq_ok,
    PlanningError.ofRegistry_eq_ok, mapM_eq_ok, exists_and_left, exists_eq_right_right]

end

namespace Engine

variable {e : Engine}

theorem avoids_sessionOfWork (id : SessionId) :
    Avoids (.formula .outOfRange) (e.sessionOfWork id) :=
  (e.avoids_validate _).bind fun _ ↦ PlanningError.avoids_ofStore _ _

/-- A planning function on a session that there is, outside of a unit of work, fails as its work
does. -/
theorem runFunction_eq_error_iff {f : PlanningFunction} {id : SessionId} {session : Session}
    (hsession : e.sessionOfWork id = .ok session) (hfree : e.store.inUnit = false)
    {err : PlanningError} : (e.runFunction f id).1 = .error err ↔ ∃ worked,
      (f.work (e.workContext id session e.nextRun)).run (e.begun (.function f.kind) false) =
        .error err worked := by
  have hunder : ∀ run, Working.Under run (f.work (e.workContext id session run)) :=
    fun run ↦ f.under_work (e.workContext id session run)
  cases hwork : (f.work (e.workContext id session e.nextRun)).run
      (e.begun (.function f.kind) false) with
  | error err' worked =>
    obtain ⟨e', hrun, -⟩ := underRun_of_error (.function f.kind) false hunder hfree hwork
    simp only [runFunction, hsession, hrun]
    constructor
    · rintro ⟨⟩
      exact ⟨worked, rfl⟩
    · rintro ⟨_, ⟨⟩⟩
      rfl
  | ok tally worked =>
    have hrun := underRun_of_ok (.function f.kind) false hunder hfree hwork
    simp only [runFunction, hsession, hrun]
    refine iff_of_false (Avoids.ok _) ?_
    rintro ⟨_, h⟩
    cases h

/-- A distribution is broken off exactly if its session is found, outside of a unit of work, and the
total of a group leaves the range. -/
theorem runFunction_eq_outOfRange_iff {groupBy : List String} {reference : String}
    {id : SessionId} :
    (e.runFunction (.distribute groupBy reference) id).1 = .error (.formula .outOfRange) ↔
      ∃ session worked, e.sessionOfWork id = .ok session ∧ e.store.inUnit = false ∧
        DistributionLeavesRange (e.workContext id session e.nextRun) groupBy reference
          (e.begun (.function "distribute") false) worked := by
  cases hsession : e.sessionOfWork id with
  | error err =>
    refine iff_of_false (fun h ↦ ?_) ?_
    · simp only [runFunction, hsession] at h
      rw [Except.error.inj h] at hsession
      exact avoids_sessionOfWork id hsession
    · rintro ⟨_, _, h, _⟩
      cases h
  | ok session =>
    by_cases hactive : e.store.inUnit = true
    · obtain ⟨e', hrun, -⟩ := underRun_of_active (.function "distribute") false
        (fun run ↦ (PlanningFunction.distribute groupBy reference).work
          (e.workContext id session run)) hactive
      simp only [runFunction, hsession, PlanningFunction.kind, hrun]
      refine iff_of_false (Avoids.error (by simp)) ?_
      rintro ⟨_, _, -, hfree, -⟩
      cases hactive.symm.trans hfree
    · have hfree := Bool.eq_false_iff.mpr hactive
      rw [runFunction_eq_error_iff hsession hfree]
      constructor
      · rintro ⟨worked, h⟩
        exact ⟨session, worked, rfl, hfree, distribute_eq_outOfRange_iff.mp h⟩
      · rintro ⟨_, worked, ⟨⟩, -, h⟩
        exact ⟨worked, distribute_eq_outOfRange_iff.mpr h⟩

/-- **Which runs are broken off.** A run of a formula is broken off exactly if it is prepared,
outside of a unit of work, and comes to a combination, those before it having entries, whose value
leaves the range: by the total of a look-up, or by an aggregate or a rounding that the evaluation
comes to. A distribution is exactly if it comes to a group whose total leaves the range. No operator
and no other function of a formula breaks a run off. -/
theorem run_broken_off_iff (e : Engine) :
    (∀ f request, (e.runFormula f request).1 = .error (.formula .outOfRange) ↔
      ∃ p, e.plan f request = .ok p ∧ e.store.inUnit = false ∧ e.RunLeavesRange f p) ∧
    ∀ groupBy reference id,
      (e.runFunction (.distribute groupBy reference) id).1 = .error (.formula .outOfRange) ↔
        ∃ session worked, e.sessionOfWork id = .ok session ∧ e.store.inUnit = false ∧
          DistributionLeavesRange (e.workContext id session e.nextRun) groupBy reference
            (e.begun (.function "distribute") false) worked :=
  ⟨fun _ _ ↦ runFormula_eq_outOfRange_iff, fun _ _ _ ↦ runFunction_eq_outOfRange_iff⟩

private def greatest : Decimal :=
  { Decimal.zero with mantissa := 2 ^ 96 - 1, mantissa_lt := by decide }

/-- The small plan with the greatest number in both facts, and a source of their total. -/
private def fullPlan : Engine :=
  { smallPlan with
    store := (smallStore.after (.put ((smallCell 1).inBatch 1) { value := greatest })).after
      (.put ((smallCell 2).inBatch 1) { value := greatest })
    catalog := Formula.Catalog.withReference {} { name := "TOTAL", keyFigure := "REV" } }

/-- What comes of the formula with an expression on the full plan. -/
private def resultOf (expression : String) : Except PlanningError RunReport :=
  (fullPlan.runFormula { name := "total", text := "[REV] = " ++ expression }
    { session := 1, period := some "01" }).1

/-- Where a sum that an operator calculates is reported as an overflow, a total that is too large
breaks the run off, as an aggregate or as reference data, and so does rounding to tens. -/
theorem run_broken_off_fullPlan :
    resultOf "[REV] + [REV]" =
        .error (.formula (.evaluation (.overflow greatest .add greatest))) ∧
      resultOf "SUM:[REV]" = .error (.formula .outOfRange) ∧
      resultOf "AVG:[REV]" = .error (.formula .outOfRange) ∧
      resultOf "REF('TOTAL')" = .error (.formula .outOfRange) ∧
      resultOf "ROUND([REV], -1)" = .error (.formula .outOfRange) ∧
      (fullPlan.runFunction (.distribute [] "TOTAL") 1).1 = .error (.formula .outOfRange) := by
  decide +kernel

end Engine

end PlanLedger
