import PlanLedger.Proofs.Planning.Frame
import PlanLedger.Proofs.Planning.Outcome
import PlanLedger.Proofs.Planning.Reachable
import PlanLedger.Proofs.Planning.Written

/-!
# Independent formulas

Two formulas are independent if they assign different key figures and neither reads the one that the
other assigns. Run on one session, the first run cannot be seen by the second: what it wrote is of a
key figure that the second one neither reads nor assigns, and the batch that it may have added is
the one that the second one would have added. So both runs do the same in either order, and since
their writes are under different keys the store comes to hold the same values.
-/

namespace PlanLedger

open Formula (Bindings CellRef TargetFault)
open Store (AgreeOn)

/-! ## Writing to a store -/

namespace Store

theorem ensureBatch_of_isLatestBatch {s : Store} {id : SessionId} {session : Session}
    {latest : BatchId} {batch : Batch} (hsession : s.session id = .ok session)
    (h : s.IsLatestBatch id latest batch) : s.ensureBatch id = .ok ((latest, batch), s) := by
  rw [ensureBatch, latestBatch_of_isLatestBatch hsession h]
  rfl

theorem ensureBatch_applyAll {s s' : Store} {id : SessionId} {session : Session}
    {found : BatchId × Batch} (hsession : s.session id = .ok session)
    (h : s.ensureBatch id = .ok (found, s')) (ws : List Write) :
    (Write.applyAll s' ws).ensureBatch id = .ok (found, Write.applyAll s' ws) := by
  obtain ⟨latest, batch⟩ := found
  have hlatest := (ensureBatch_eq_ok h).1
  have hrows := Write.rowsWritten_applyAll s' ws
  have hsession' : (Write.applyAll s' ws).session id = .ok session := by
    rw [session_eq_ok_iff] at hsession ⊢
    rw [hrows.sessions, sessions_ensureBatch h, hsession]
  refine ensureBatch_of_isLatestBatch hsession' ⟨?_, hlatest.owned, ?_⟩
  · rw [hrows.batches]
    exact hlatest.stored
  · rw [hrows.batches]
    exact hlatest.newest

end Store

/-! ## The key figure of a target -/

theorem keyFigure_placeOnTarget {x : RunFrame} {name : String} {c c' : Cell} {p : Dimension × DimId}
    (h : placeOnTarget x name c p = .ok c') : c'.keyFigure = c.keyFigure := by
  obtain ⟨d, v⟩ := p
  cases d with
  | keyFigure => cases h
  | version | year =>
    dsimp only [placeOnTarget] at h
    split_ifs at h
    cases h
    rfl
  | _ =>
    cases h
    rfl

/-- A target is of the key figure that it names, since no filter may name another one. -/
theorem keyFigure_target {r : Registry} {x : RunFrame} {b : Bindings} {ref : CellRef} {c : Cell}
    {name : String} {keyFigure : DimId} (hnamed : ref.resolveKeyFigure r b = .ok keyFigure)
    (h : target r x b ref = .ok (c, name)) : c.keyFigure = keyFigure := by
  rw [target, hnamed, ok_bind] at h
  obtain ⟨pairs, -, h⟩ := bind_eq_ok.mp h
  dsimp only at h
  split at h
  · rename_i c' hcell
    cases h
    simp only [targetCell] at hcell
    split at hcell
    · cases hcell
    · cases hcell
    · refine of_foldlM_eq_ok (P := fun c ↦ c.keyFigure = keyFigure) hcell rfl
        fun p _ c c' hc hstep ↦ ?_
      exact (keyFigure_placeOnTarget hstep).trans hc
  · cases h

namespace Engine

variable {e : Engine} {f g : PlanFormula} {own other : DimId}

/-! ## Independence -/

/-- A formula that assigns a key figure and reads nothing of another one. -/
structure KeepsApart (e : Engine) (f : PlanFormula) (own other : DimId) : Prop where
  target : ∀ compiled, e.compile f = .ok compiled →
    compiled.statement.target.keyFigure = .id own
  reads : ∀ compiled, e.compile f = .ok compiled →
    ¬ compiled.statement.expr.Reads e.catalog e.registry other

theorem keepsApart_of_compile {compiled : CompiledFormula} (hcompile : e.compile f = .ok compiled)
    (htarget : compiled.statement.target.keyFigure = .id own)
    (hreads : ¬ compiled.statement.expr.Reads e.catalog e.registry other) :
    e.KeepsApart f own other := by
  constructor
  · intro compiled' h
    cases hcompile.symm.trans h
    exact htarget
  · intro compiled' h
    cases hcompile.symm.trans h
    exact hreads

variable {request : RunRequest} {p : RunPlan} {batch : BatchId} {s : Store} {entries : List Entry}

theorem resolveKeyFigure_of_combinationEntry {b : Bindings} {entry : Entry}
    (h : e.combinationEntry s f p batch b = .ok entry) :
    p.compiled.statement.target.resolveKeyFigure e.registry b =
      .ok entry.key.cell.keyFigure := by
  rw [combinationEntry] at h
  obtain ⟨⟨c, name⟩, htarget, h⟩ := bind_eq_ok.mp h
  obtain ⟨value, -, h⟩ := bind_eq_ok.mp h
  cases h
  have hfirst := htarget
  rw [target] at hfirst
  obtain ⟨keyFigure, hnamed, -⟩ := bind_eq_ok.mp hfirst
  rw [hnamed, ← keyFigure_target hnamed htarget]
  rfl

theorem KeepsApart.keyFigure_eq (h : e.KeepsApart f own other)
    (hrun : e.Calculates f request p batch s entries) :
    ∀ entry ∈ entries, entry.key.cell.keyFigure = own := by
  intro entry hentry
  obtain ⟨b, -, hcalculated⟩ := exists_mem_of_mapM_eq_ok hrun.calculated hentry
  have hnamed := resolveKeyFigure_of_combinationEntry hcalculated
  rw [CellRef.resolveKeyFigure, h.target _ (compile_eq_of_plan hrun.plan)] at hnamed
  exact (Except.ok.inj hnamed).symm

/-- The value of a combination is read from cells of the key figures that the expression reads. -/
theorem valueWithin_of_reads (figures : DimId → Prop)
    (h : ∀ keyFigure, p.compiled.statement.expr.Reads e.catalog e.registry keyFigure →
      figures keyFigure) (b : Bindings) : e.ValueWithin p b fun c ↦ figures c.keyFigure := by
  refine ⟨fun ref href keyFigure f hkeyFigure c hselects ↦ ?_,
    fun call data hcall keyFigure f hdata hkeyFigure c hselects ↦ ?_⟩
  · rw [Filter.keyFigure_of_selects hselects]
    exact h keyFigure (.inl ⟨ref, b, href, hkeyFigure⟩)
  · rw [Filter.keyFigure_of_selects hselects]
    exact h keyFigure (.inr ⟨call, data, hcall, hdata, hkeyFigure⟩)

/-- All that a run reads is of other key figures than one that the formula keeps apart from. -/
theorem KeepsApart.readsWithin (h : e.KeepsApart f own other) (hne : own ≠ other)
    (hplan : e.plan f request = .ok p) (b : Bindings) :
    e.ReadsWithin p b fun c ↦ c.keyFigure ≠ other := by
  have hcompile := compile_eq_of_plan hplan
  refine ⟨valueWithin_of_reads (· ≠ other) (fun keyFigure hreads heq ↦ ?_) b,
    fun c name htarget ↦ ?_⟩
  · exact h.reads _ hcompile (heq ▸ hreads)
  · have hown : c.keyFigure = own := by
      refine keyFigure_target ?_ htarget
      rw [CellRef.resolveKeyFigure, h.target _ hcompile]
      rfl
    rwa [hown]

/-- A run that succeeds is prepared in the same way after any writes to the batch that it found, and
it finds this batch again. It succeeds once more if its combinations have entries. -/
theorem Calculates.after_writes (h : e.Calculates f request p batch s entries) (ws : List Write)
    (ledger : Ledger) {entries' : List Entry}
    (hcalculated : p.combinations.mapM (e.combinationEntry (Write.applyAll s ws) f p batch) =
      .ok entries') :
    { e with store := Write.applyAll s ws, ledger }.Calculates f request p batch
      (Write.applyAll s ws) entries' := by
  obtain ⟨stored, hensure⟩ := h.writesTo
  have hfree : (Write.applyAll s ws).saved = none := by
    rw [Write.saved_applyAll, Store.saved_ensureBatch hensure]
    simpa [Store.inUnit] using h.free
  have hsession : (Write.applyAll s ws).session request.session =
      e.store.session request.session := by
    rw [Store.session, Store.session, (Write.rowsWritten_applyAll s ws).sessions,
      Store.sessions_ensureBatch hensure]
  have hlength : entries'.length = entries.length :=
    (mapM_eq_ok.mp hcalculated).length_eq.symm.trans (mapM_eq_ok.mp h.calculated).length_eq
  refine ⟨?_, ?_, ⟨stored, Store.ensureBatch_applyAll (plan_eq_ok h.plan).session hensure ws⟩,
    hcalculated, ?_⟩
  · rw [plan_withStore ledger hsession]
    exact h.plan
  · simp [Store.inUnit, hfree]
  · rw [hlength]
    exact h.room

/-- **An independent run changes nothing for the run after it.** A run that succeeds also succeeds
after writes of a key figure that its formula keeps apart from, with the same entries. -/
theorem KeepsApart.calculates_after (h : e.KeepsApart f own other) (hne : own ≠ other)
    (hrun : e.Calculates f request p batch s entries) {ws : List Write}
    (hws : ∀ w ∈ ws, w.key.cell.keyFigure = other) (ledger : Ledger) :
    { e with store := Write.applyAll s ws, ledger }.Calculates f request p batch
      (Write.applyAll s ws) entries := by
  obtain ⟨stored, hensure⟩ := hrun.writesTo
  have hagree : AgreeOn (fun c ↦ c.keyFigure ≠ other) e.store (Write.applyAll s ws) :=
    (AgreeOn.of_facts_eq (Store.facts_ensureBatch hensure).symm).trans
      (Write.agreeOn_applyAll s fun w hw hkeyFigure ↦ hkeyFigure (hws w hw))
  refine hrun.after_writes ws ledger ?_
  rw [← hrun.calculated]
  refine mapM_congr fun b _ ↦ ?_
  exact (combinationEntry_congr (h.readsWithin hne hrun.plan b) hagree).symm

/-! ## Two runs -/

theorem Calculates.writesTo_eq {forF forG : RunRequest} (hsession : forF.session = forG.session)
    {pf pg : RunPlan} {batch batch' : BatchId} {s s' : Store} {fs gs : List Entry}
    (hrunF : e.Calculates f forF pf batch s fs) (hrunG : e.Calculates g forG pg batch' s' gs) :
    batch' = batch ∧ s' = s := by
  obtain ⟨stored, hensure⟩ := hrunF.writesTo
  obtain ⟨stored', hensure'⟩ := hrunG.writesTo
  rw [← hsession, hensure] at hensure'
  cases hensure'
  exact ⟨rfl, rfl⟩

/-- The second of two independent runs has the report that it would have had without the first, but
for its number, and leaves the writes of both. -/
theorem KeepsApart.second_run (hf : e.KeepsApart f own other) (hg : e.KeepsApart g other own)
    (hne : own ≠ other) {forF forG : RunRequest} (hsession : forF.session = forG.session)
    (hpreviewF : forF.preview = false) (hpreviewG : forG.preview = false) {pf pg : RunPlan}
    {batch batch' : BatchId} {s s' : Store} {fs gs : List Entry}
    (hrunF : e.Calculates f forF pf batch s fs) (hrunG : e.Calculates g forG pg batch' s' gs) :
    ((e.runFormula f forF).2.runFormula g forG).1 =
        .ok { listed g forG gs with id := e.nextRun + 1 } ∧
      ((e.runFormula f forF).2.runFormula g forG).2.store =
        Write.applyAll (Write.applyAll s (fs.map Entry.toWrite)) (gs.map Entry.toWrite) := by
  obtain ⟨rfl, rfl⟩ := hrunF.writesTo_eq hsession hrunG
  have hws : ∀ w ∈ fs.map Entry.toWrite, w.key.cell.keyFigure = own := by
    intro w hw
    obtain ⟨entry, hentry, rfl⟩ := List.mem_map.mp hw
    exact hf.keyFigure_eq hrunF entry hentry
  obtain ⟨ledger, hlast, hfirst⟩ := hrunF.runFormula_eq
  rw [hpreviewF, if_neg Bool.false_ne_true] at hfirst
  obtain ⟨ledger', -, hsecond⟩ :=
    (hg.calculates_after hne.symm hrunG hws ledger).runFormula_eq
  rw [hpreviewG, if_neg Bool.false_ne_true] at hsecond
  rw [hfirst, hsecond, nextRun, hlast]
  exact ⟨rfl, rfl⟩

/-- **Independent formulas commute.** Let two formulas assign different key figures and neither read
the one that the other assigns, and let each succeed on a session. Then they succeed one after the
other in either order, each with the entries that it has by itself, and every cell comes to have the
same current value and reference value with the same units. -/
theorem independent_runs_commute (hf : e.KeepsApart f own other) (hg : e.KeepsApart g other own)
    (hne : own ≠ other) {forF forG : RunRequest} (hsession : forF.session = forG.session)
    (hpreviewF : forF.preview = false) (hpreviewG : forG.preview = false)
    {reportF reportG : RunReport} (hF : (e.runFormula f forF).1 = .ok reportF)
    (hG : (e.runFormula g forG).1 = .ok reportG) :
    ((e.runFormula f forF).2.runFormula g forG).1 = .ok { reportG with id := e.nextRun + 1 } ∧
      ((e.runFormula g forG).2.runFormula f forF).1 = .ok { reportF with id := e.nextRun + 1 } ∧
      ∀ c, (((e.runFormula f forF).2.runFormula g forG).2.store.currentFact? c).map Fact.values =
        (((e.runFormula g forG).2.runFormula f forF).2.store.currentFact? c).map Fact.values := by
  obtain ⟨pf, batch, s, fs, hrunF, rfl⟩ := exists_calculates hF
  obtain ⟨pg, batch', s', gs, hrunG, rfl⟩ := exists_calculates hG
  obtain ⟨hfg, hstore⟩ := hf.second_run hg hne hsession hpreviewF hpreviewG hrunF hrunG
  obtain ⟨hgf, hstore'⟩ :=
    hg.second_run hf hne.symm hsession.symm hpreviewG hpreviewF hrunG hrunF
  refine ⟨hfg, hgf, fun c ↦ Store.map_values_currentFact?_congr fun b ↦ ?_⟩
  have hkeys : ∀ a ∈ fs, ∀ b ∈ gs, a.key ≠ b.key := by
    intro a ha b hb hkey
    refine hne ?_
    rw [← hf.keyFigure_eq hrunF a ha, ← hg.keyFigure_eq hrunG b hb, hkey]
  obtain ⟨-, rfl⟩ := hrunF.writesTo_eq hsession hrunG
  rw [hstore, hstore', Entry.values?_applyAll, Entry.values?_applyAll,
    Entry.values?_applyAll, Entry.values?_applyAll, Entry.foldl_overwrite_comm hkeys]

/-! ## Two formulas of the small plan -/

private def twoFigures : Engine :=
  { smallPlan with
    registry := ⟨smallPlan.registry.lists.insert .keyFigure
      { values := .ofList [(1, { id := 1, code := "REV" }), (2, { id := 2, code := "QTY" })]
        byCode := .ofList [("REV", 1), ("QTY", 2)] }⟩ }

private def addRevenue : PlanFormula := { name := "revenue", text := "[REV] = SUM:[REV] + 20" }

private def compiledRevenue : CompiledFormula where
  name := "revenue"
  statement := ⟨{ keyFigure := .id 1 }, .binary (.arithmetic .add)
    (.cell { aggregate := some .sum, keyFigure := .id 1 }) (.number twenty)⟩
  loops := []
  hasReferences := false

private def addQuantity : PlanFormula := { name := "quantity", text := "[QTY] = [QTY] + 10" }

private def compiledQuantity : CompiledFormula where
  name := "quantity"
  statement := ⟨{ keyFigure := .id 2 }, .binary (.arithmetic .add)
    (.cell { keyFigure := .id 2 }) (.number ten)⟩
  loops := []
  hasReferences := false

/-- A request for the first period of the second session, which has no batch. -/
private def inSecondSession : RunRequest := { session := 2, period := some "01" }

/-- The report of a run on the second session that gives an empty cell a value. -/
private def given (name : String) (keyFigure : DimId) (cellName : String) (value : Decimal) :
    RunReport where
  id := 1
  source := .formula name
  preview := false
  entries := [{ key := { smallCell 1 with session := 2, keyFigure }.inBatch 2, cellName,
                oldValue := .zero, newValue := value.padTo 4, seq := 0 }]

private theorem keepsApart_revenue : twoFigures.KeepsApart addRevenue 1 2 := by
  have hcompile : twoFigures.compile addRevenue = .ok compiledRevenue := by
    decide +kernel
  refine keepsApart_of_compile hcompile rfl ?_
  rintro (⟨ref, b, href, hread⟩ | ⟨call, data, hcall, -⟩)
  · simp [compiledRevenue, Formula.Expr.nodes] at href
    subst href
    cases hread
  · simp [compiledRevenue, Formula.Expr.nodes] at hcall

private theorem keepsApart_quantity : twoFigures.KeepsApart addQuantity 2 1 := by
  have hcompile : twoFigures.compile addQuantity = .ok compiledQuantity := by
    decide +kernel
  refine keepsApart_of_compile hcompile rfl ?_
  rintro (⟨ref, b, href, hread⟩ | ⟨call, data, hcall, -⟩)
  · simp [compiledQuantity, Formula.Expr.nodes] at href
    subst href
    cases hread
  · simp [compiledQuantity, Formula.Expr.nodes] at hcall

/-- In the second session revenues and quantities can be added in either order. -/
theorem independent_runs_commute_smallPlan :
    ((twoFigures.runFormula addRevenue inSecondSession).2.runFormula addQuantity
        inSecondSession).1 = .ok { given "quantity" 2 "QTY" ten with id := 2 } ∧
      ((twoFigures.runFormula addQuantity inSecondSession).2.runFormula addRevenue
        inSecondSession).1 = .ok { given "revenue" 1 "REV" twenty with id := 2 } ∧
      ∀ c, (((twoFigures.runFormula addRevenue inSecondSession).2.runFormula addQuantity
          inSecondSession).2.store.currentFact? c).map Fact.values =
        (((twoFigures.runFormula addQuantity inSecondSession).2.runFormula addRevenue
          inSecondSession).2.store.currentFact? c).map Fact.values := by
  have hrevenue : (twoFigures.runFormula addRevenue inSecondSession).1 =
      .ok (given "revenue" 1 "REV" twenty) := by
    decide +kernel
  have hquantity : (twoFigures.runFormula addQuantity inSecondSession).1 =
      .ok (given "quantity" 2 "QTY" ten) := by
    decide +kernel
  exact independent_runs_commute keepsApart_revenue keepsApart_quantity (by decide) rfl rfl rfl
    hrevenue hquantity

end Engine

end PlanLedger
