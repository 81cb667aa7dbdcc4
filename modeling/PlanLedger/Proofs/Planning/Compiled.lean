import PlanLedger.Proofs.Planning.Combinations
import PlanLedger.Proofs.Planning.Entries
import PlanLedger.Proofs.Planning.Reachable

/-!
# Runs of compiled formulas

Whatever can be known to be wrong with a formula before it runs is found when it is compiled. Once
its session and its period are found, a run of a compiled formula takes its number, calculates an
entry for each combination, and lists and writes the entries, of which nothing is refused as long as
the ledger has room for them. So a run without look-ups fails only at a combination: because it
cannot assign to the cell, or because it cannot calculate the value.
-/

namespace PlanLedger

open Formula (Bindings CellRef)

/-! ## Entries of combinations -/

theorem target_eq_error {r : Registry} {x : RunFrame} {b : Bindings} {ref : CellRef}
    (href : ref.IsResolved r) (hb : Formula.Binds b ref.filters) {err : Formula.FormulaError}
    (h : target r x b ref = .error err) : ∃ fault, err = .invalidTarget fault := by
  obtain ⟨keyFigure, text, hkeyFigure, -⟩ := href.keyFigure
  obtain ⟨pairs, hpairs⟩ := Formula.exists_resolvePairs href.filters hb
  have hresolve : ref.resolveKeyFigure r b = .ok keyFigure := by
    simp only [CellRef.resolveKeyFigure, Formula.DimFilter.resolve, hkeyFigure]
  rw [target, hresolve, ok_bind, hpairs, ok_bind] at h
  dsimp only at h
  split at h
  · cases h
  · rename_i fault _
    cases h
    exact ⟨fault, rfl⟩

namespace Engine

variable {e : Engine} {f : PlanFormula} {request : RunRequest} {p : RunPlan}

/-- A run of a compiled formula is prepared if its session and its period are found. -/
theorem exists_plan {compiled : CompiledFormula} {session : Session} {period : Option DimId}
    (hoptions : e.options.validate = .ok ()) (hcompile : e.compile f = .ok compiled)
    (hsession : e.store.session request.session = .ok session)
    (hperiod : e.resolveOption .period request.period = .ok period) :
    ∃ p, e.plan f request = .ok p ∧ p.compiled = compiled := by
  obtain ⟨bs, hbs⟩ := (compile_eq_ok hcompile).exists_combinations
  refine ⟨⟨compiled, ⟨request.session, session, period⟩, bs⟩, ?_, rfl⟩
  rw [plan, hoptions, ok_bind, hcompile, ok_bind, PlanningError.ofStore_eq_ok.mpr hsession,
    ok_bind, hperiod, ok_bind, PlanningError.ofRegistry_eq_ok.mpr hbs]
  rfl

theorem Plans.combinationEntry_eq_error (hp : e.Plans f request p)
    (hreferences : p.compiled.statement.expr.hasReferences = false) {s : Store} {batch : BatchId}
    {b : Bindings} (hb : b ∈ p.combinations) {err : Formula.FormulaError}
    (h : e.combinationEntry s f p batch b = .error err) :
    (∃ fault, err = .invalidTarget fault) ∨ err.isCalculation = true := by
  obtain ⟨htarget, hexpr⟩ := hp.compiles.isExpanded
  have hbinds := hp.compiles.binds hp.combinations hb
  rw [combinationEntry] at h
  rcases bind_eq_error.mp h with h | ⟨⟨cell, name⟩, -, h⟩
  · left
    exact target_eq_error htarget (fun g hg ↦ hbinds g (List.mem_append_right _ hg)) h
  · right
    rcases bind_eq_error.mp h with h | ⟨value, -, h⟩
    · rw [combinationValue, hp.compiles.hasReferences, hreferences] at h
      refine Formula.isCalculation_of_evaluateScalar ?_ h
      exact hexpr.findsNode hreferences fun g hg ↦ hbinds g (List.mem_append_left _ hg)
    · cases h

/-! ## Runs -/

/-- **Compilation finds what can be found before a run.** A formula that compiles, without look-ups
in reference data, is run on a session that there is and for a period that there is, with room for
its combinations in the ledger and no unit of work open. If the run returns an error, it cannot
assign to the cell of a combination or cannot calculate a value. The third case is that of a
calculation that is broken off and returns nothing, since an aggregate or a rounding leaves the
range of decimal numbers. -/
theorem compiled_run_faults {compiled : CompiledFormula} {session : Session}
    {period : Option DimId} (hoptions : e.options.validate = .ok ())
    (hcompile : e.compile f = .ok compiled)
    (hreferences : compiled.statement.expr.hasReferences = false)
    (hsession : e.store.session request.session = .ok session)
    (hperiod : e.resolveOption .period request.period = .ok period)
    (hfree : e.store.inUnit = false)
    (hroom : ∀ bs, e.registry.combinations compiled.loops = .ok bs → bs.length < maxEntries)
    {err : PlanningError} (h : (e.runFormula f request).1 = .error err) :
    (∃ fault, err = .formula (.invalidTarget fault)) ∨
      (∃ fault, err = .formula (.evaluation fault)) ∨ err = .formula .outOfRange := by
  obtain ⟨p, hplan, rfl⟩ := exists_plan hoptions hcompile hsession hperiod
  have hp := plan_eq_ok hplan
  cases hwork : (e.runWork f p request.preview e.nextRun).run
      (e.begun (.formula f.name) request.preview) with
  | ok u worked =>
    have hmoved := e.under_runWork f p request.preview e.nextRun
      (e.begun (.formula f.name) request.preview)
    rw [Working.after_of_ok hwork] at hmoved
    obtain ⟨run, hlisted⟩ := exists_run?_of_movedTo hmoved
    rw [runFormula_of_ok hplan hfree hwork hlisted] at h
    cases h
  | error err' worked =>
    rw [runFormula_of_error hplan hfree hwork] at h
    cases h
    have hfound : (e.begun (.formula f.name) request.preview).store.session p.frame.sessionId =
        .ok p.frame.session := by
      rw [hp.session_id]
      exact hp.session
    have hlisted := run?_begun (e := e) (.formula f.name) request.preview
    have hcount := hroom _ hp.combinations
    obtain ⟨s, batch, b, hb, fault, hfault, rfl⟩ :=
      runWork_eq_error hfound hlisted (by rw [List.length_nil]; omega) hwork
    rcases hp.combinationEntry_eq_error hreferences hb hfault with ⟨target, rfl⟩ | hcalculation
    · exact .inl ⟨target, rfl⟩
    · cases fault with
      | evaluation fault => exact .inr (.inl ⟨fault, rfl⟩)
      | outOfRange => exact .inr (.inr rfl)
      | _ => cases hcalculation

private def ratio : PlanFormula := { name := "ratio", text := "[REV] = 1 / 0" }

private def compiledRatio : CompiledFormula where
  name := "ratio"
  statement := ⟨{ keyFigure := .id 1 },
    .binary (.arithmetic .divide) (.number .one) (.number .zero)⟩
  loops := []
  hasReferences := false

/-- A division by zero compiles, and the run on the small plan fails by it. -/
theorem compiled_run_faults_division :
    (smallPlan.runFormula ratio { session := 1, period := some "01" }).1 =
        .error (.formula (.evaluation .divisionByZero)) ∧
      ((∃ fault, PlanningError.formula (.evaluation .divisionByZero) =
          .formula (.invalidTarget fault)) ∨
        (∃ fault, PlanningError.formula (.evaluation .divisionByZero) =
          .formula (.evaluation fault)) ∨
        PlanningError.formula (.evaluation .divisionByZero) = .formula .outOfRange) := by
  have hcompile : smallPlan.compile ratio = .ok compiledRatio := by
    decide +kernel
  have hsession : smallPlan.store.session 1 =
      .ok { version := 1, year := 1, orgUnit := some 1 } := by
    decide +kernel
  have hperiod : smallPlan.resolveOption .period (some "01") = .ok (some 1) := by
    decide +kernel
  have hroom : ∀ bs, smallPlan.registry.combinations compiledRatio.loops = .ok bs →
      bs.length < maxEntries := by
    intro bs hbs
    cases hbs
    decide +kernel
  have hfails : (smallPlan.runFormula ratio { session := 1, period := some "01" }).1 =
      .error (.formula (.evaluation .divisionByZero)) := by
    decide +kernel
  exact ⟨hfails, compiled_run_faults (by decide +kernel) hcompile (by decide +kernel) hsession
    hperiod (by decide +kernel) hroom hfails⟩

end Engine

end PlanLedger
