import PlanLedger.Proofs.Planning.Cells
import PlanLedger.Proofs.Planning.Frame

/-!
# Referential integrity

A store is intact if its sessions and the cells of its facts are registered. Whatever is written by
runs is written to registered cells: to those of stored facts, to copies of them, and to targets. As
sessions that are there never change, stores stay intact however an engine is used.
-/

namespace PlanLedger

open Contents

/-! ## Intact stores -/

/-- Contents in which all sessions and all cells are registered. -/
structure Contents.Intact (r : Registry) (c : Contents) : Prop where
  sessions : ∀ id session, c.sessions.get? id = some session → session.IsRegistered r
  rows : ∀ key row, c.facts.get? key = some row → key.cell.IsRegistered r c.sessions

section

variable {r : Registry} {c c' : Contents}

theorem Cell.IsRegistered.of_keeps {cell : Cell} (h : cell.IsRegistered r c.sessions)
    (hkeeps : c.Keeps c') : cell.IsRegistered r c'.sessions := by
  obtain ⟨session, hsession, hsame⟩ := h.session
  exact ⟨⟨session, hkeeps.sessions _ session hsession, hsame⟩, h.covered⟩

theorem Contents.Intact.rowsWritten {keys : FactKey → Prop} (h : c.Intact r)
    (hwritten : c.RowsWritten c' keys)
    (hkeys : ∀ key, keys key → key.cell.IsRegistered r c.sessions) : c'.Intact r := by
  refine ⟨fun id session hsession ↦ ?_, fun key row hrow ↦ ?_⟩
  · rw [hwritten.sessions] at hsession
    exact h.sessions id session hsession
  · rw [hwritten.sessions]
    by_cases hkey : keys key
    · exact hkeys key hkey
    · rw [hwritten.others key hkey] at hrow
      exact h.rows key row hrow

variable {s s' : Store}

theorem Store.intact_withSession (h : s.Intact r) (hs : s.WellFormed) {session : Session}
    (hsession : session.IsRegistered r) :
    (s.withSession (s.lastSession + 1) session).Intact r := by
  refine ⟨fun id stored hstored ↦ ?_, fun key row hrow ↦ ?_⟩
  · rw [withSession, SortedMap.get?_insert] at hstored
    split_ifs at hstored
    · cases hstored
      exact hsession
    · exact h.sessions id stored hstored
  · exact (h.rows key row hrow).of_keeps (keeps_withSession hs session)

theorem Store.intact_withBatch (h : s.Intact r) (batch : Batch) : (s.withBatch batch).Intact r :=
  ⟨h.sessions, h.rows⟩

theorem Store.intact_ensureBatch (h : s.Intact r) {session : SessionId} {found : BatchId × Batch}
    (hensure : s.ensureBatch session = .ok (found, s')) : s'.Intact r := by
  rcases (ensureBatch_eq_ok hensure).2 with rfl | ⟨-, hcreate⟩
  · exact h
  · obtain ⟨-, -, rfl⟩ := createBatch_eq_ok hcreate
    exact intact_withBatch h _

theorem Contents.Intact.of_mem_allFacts (h : s.Intact r) {fact : Fact} (hfact : fact ∈ s.allFacts) :
    fact.cell.IsRegistered r s.sessions := by
  obtain ⟨⟨key, row⟩, hrow, rfl⟩ := List.mem_map.mp hfact
  exact h.rows key row (SortedMap.get?_eq_some_iff.mpr hrow)

end

/-! ## Runs -/

section

variable {x : WorkContext} {b b' : Books} {t : Tally} {run : RunId} {ws : List Write}

theorem Books.WroteInPlace.intact {r : Registry} {session : SessionId} (h : b.store.Intact r)
    (hwrote : b.WroteInPlace run session ws b') : b'.store.Intact r := by
  refine h.rowsWritten hwrote.wrote.rowsWritten ?_
  rintro key ⟨w, hw, rfl⟩
  obtain ⟨fact, hcurrent, hkey, -⟩ := hwrote.replaces w hw
  rw [hkey]
  exact h.of_mem_allFacts hcurrent.newest.mem

theorem Books.WroteNewBatch.intact {r : Registry} {s : Store} {batch : Batch} {cells : Cell → Prop}
    (h : s.Intact r) (hwrote : b.WroteNewBatch run s batch cells ws b')
    (hcells : ∀ c, cells c → c.IsRegistered r s.sessions) : b'.store.Intact r := by
  refine (Store.intact_withBatch h batch).rowsWritten hwrote.wrote.rowsWritten ?_
  rintro key ⟨w, hw, rfl⟩
  exact hcells _ (hwrote.cells w hw)

theorem PlanningFunction.intact_work (f : PlanningFunction) (hr : x.registry.Built)
    (hs : b.store.WellFormed) (h : b.store.Intact x.registry)
    (hrun : (f.work x).run b = .ok t b') : b'.store.Intact x.registry := by
  cases f with
  | repost =>
    rcases wroteNewBatch_repost hs hrun with ⟨rfl, -⟩ | ⟨batch, ws, -, hwrote, -⟩
    · exact h
    · refine hwrote.intact h ?_
      rintro c ⟨fact, hfact, rfl, -⟩
      exact h.of_mem_allFacts hfact
  | copy toVersion year period =>
    rcases wroteNewBatch_copy hrun with ⟨rfl, -⟩ |
      ⟨version, yearId, target, session, s, batch, ws, hversion, hyear, hfound, -, hwrote, -⟩
    · exact h
    · obtain ⟨hstored, rfl, rfl, hsession⟩ := Store.findOrCreateSession_eq hfound
      have hversion := hr.has_of_resolve hversion
      have hyear := hr.has_of_resolve hyear
      have hs : s.Intact x.registry := by
        rcases hsession with rfl | ⟨rfl, hnew, rfl⟩
        · exact h
        · refine Store.intact_withSession h hs ⟨hversion, hyear, fun id hid ↦ ?_⟩
          rw [hnew] at hid
          cases hid
      refine hwrote.intact hs ?_
      rintro c ⟨fact, hfact, rfl⟩
      exact ⟨⟨session, hstored, rfl, rfl⟩,
        covers_copiedCell (h.of_mem_allFacts hfact).covered target hversion hyear⟩
  | _ =>
    obtain ⟨ws, hwrote, -⟩ := PlanningFunction.wroteInPlace_work rfl hrun
    exact hwrote.intact h

namespace Engine

variable {e : Engine}

theorem intact_runWork {f : PlanFormula} {request : RunRequest} {p : RunPlan}
    (hr : e.registry.Built) (hp : e.Plans f request p) (h : b.store.Intact e.registry)
    (hsession : b.store.sessions.get? p.frame.sessionId = some p.frame.session)
    (hrun : (e.runWork f p false run).run b = .ok () b') : b'.store.Intact e.registry := by
  obtain ⟨batch, stored, s, entries, ws, hensure, hentries, hws, hwrote⟩ := wrote_runWork hrun
  have hsame : s.sessions = b.store.sessions := Store.sessions_ensureBatch hensure
  have hs : s.Intact e.registry := Store.intact_ensureBatch h hensure
  rw [← hsame] at hsession
  refine hs.rowsWritten hwrote.rowsWritten ?_
  rintro key ⟨w, hw, rfl⟩
  have hentry : w.entry ∈ entries := by
    rw [← hws]
    exact List.mem_map_of_mem hw
  obtain ⟨combination, hmem, hcalculated⟩ := exists_mem_of_mapM_eq_ok hentries hentry
  rw [combinationEntry] at hcalculated
  obtain ⟨⟨c, name⟩, htarget, hcalculated⟩ := bind_eq_ok.mp hcalculated
  obtain ⟨value, -, hcalculated⟩ := bind_eq_ok.mp hcalculated
  have hkey : w.key.cell = c := by
    rw [Write.key, ← Except.ok.inj hcalculated]
    rfl
  rw [hkey]
  have hframe : p.frame.IsRegistered e.registry s.sessions :=
    ⟨hsession, hs.sessions _ _ hsession, has_of_resolveOption hr hp.period⟩
  have hchoice := (Registry.of_mem_combinations hp.combinations hmem).1
  exact isRegistered_target hr hframe hchoice hp.compiles.isExpanded.1 htarget

theorem intact_perform (hr : e.registry.Built) (hs : e.store.WellFormed)
    (h : e.store.Intact e.registry) (call : RunCall) :
    (e.perform call).2.store.Intact e.registry := by
  cases call with
  | formula f request =>
    rw [perform]
    rcases e.store_runFormula_cases f request with hsame | ⟨p, worked, hplan, hwork, hstore⟩
    · rwa [hsame]
    · rw [hstore]
      have hp := plan_eq_ok hplan
      have hsession := Store.session_eq_ok_iff.mp hp.session
      rw [← hp.session_id] at hsession
      exact intact_runWork (b := e.begun (.formula f.name) false) hr hp h hsession hwork
  | function f id =>
    rw [perform]
    rcases e.store_runFunction_cases f id with hsame | ⟨session, tally, worked, hwork, hstore⟩
    · rwa [hsame]
    · rw [hstore]
      exact f.intact_work (b := e.begun (.function f.kind) false)
        (x := e.workContext id session e.nextRun) hr (wellFormed_begun hs _ _) h hwork

theorem registry_underRun {α : Type} (source : RunSource) (preview : Bool)
    (work : RunId → Working α) : (e.underRun source preview work).2.registry = e.registry := by
  rw [underRun]
  dsimp only
  split <;> rfl

theorem registry_perform (e : Engine) (call : RunCall) :
    (e.perform call).2.registry = e.registry := by
  cases call with
  | formula f request =>
    rw [perform, runFormula]
    split
    · rfl
    · rename_i p _
      have hsame := e.registry_underRun (.formula f.name) request.preview
        (e.runWork f p request.preview)
      split
      · rename_i heq
        rwa [heq] at hsame
      · rename_i heq
        rw [heq] at hsame
        split <;> exact hsame
  | function f id =>
    rw [perform, runFunction]
    split
    · rfl
    · rename_i session _
      have hsame := e.registry_underRun (.function f.kind) false
        fun run ↦ f.work (e.workContext id session run)
      split
      · rename_i heq
        rwa [heq] at hsame
      · rename_i heq
        rwa [heq] at hsame

end Engine

end

/-! ## Engines in use -/

namespace Engine

/-- An engine with a registry that is used from an empty store on, with the cells that were made so
far. Sessions are created, cells are made, facts are loaded into cells that were made, formulas and
planning functions are run, and the catalog and the options are exchanged. Each call may fail. -/
inductive InUse (r : Registry) : Engine → List Cell → Prop
  | new (ledger : Ledger) (catalog : Formula.Catalog) (options : Options) :
      InUse r { store := ∅, ledger, registry := r, catalog, options } []
  | createSession {e : Engine} {cells : List Cell} (h : InUse r e cells)
      (name version year : String) (orgUnit : Option String) :
      InUse r (e.after (.createSession name version year orgUnit)) cells
  | cell {e : Engine} {cells : List Cell} (h : InUse r e cells) {session : SessionId}
      {keyFigure : String} {dims : List (String × String)} {c : Cell}
      (hc : e.cell session keyFigure dims = .ok c) : InUse r e (c :: cells)
  | loadFact {e : Engine} {cells : List Cell} (h : InUse r e cells) {c : Cell} (hc : c ∈ cells)
      (values : FactValues) : InUse r (e.after (.loadFact c values)) cells
  | run {e : Engine} {cells : List Cell} (h : InUse r e cells) (call : RunCall) :
      InUse r (e.after (.run call)) cells
  | setUp {e : Engine} {cells : List Cell} (h : InUse r e cells) (catalog : Formula.Catalog)
      (options : Options) : InUse r (e.after (.setUp r catalog options)) cells

theorem InUse.reachable {r : Registry} {e : Engine} {cells : List Cell} (h : InUse r e cells) :
    e.Reachable := by
  induction h with
  | new ledger catalog options => exact .new .empty ledger r catalog options
  | createSession _ name version year orgUnit ih => exact ih.call _
  | cell _ hc ih => exact ih
  | loadFact _ hc values ih => exact ih.call _
  | run _ call ih => exact ih.call _
  | setUp _ catalog options ih => exact ih.call _

/-- What is true of an engine in use. -/
structure Sound (r : Registry) (e : Engine) (cells : List Cell) : Prop where
  registry : e.registry = r
  intact : e.store.Intact r
  cells : ∀ c ∈ cells, c.IsRegistered r e.store.sessions

namespace Sound

variable {r : Registry} {e e' : Engine} {cells : List Cell}

theorem call (hs : e.store.WellFormed) (h : Sound r e cells) {call : EngineCall}
    (hcall : ∀ direct, call ≠ .onStore direct) (hregistry : (e.after call).registry = e.registry)
    (hintact : (e.after call).store.Intact r) : Sound r (e.after call) cells :=
  ⟨hregistry.trans h.registry, hintact, fun c hc ↦ (h.cells c hc).of_keeps (keeps_after hs hcall)⟩

theorem createSession (hr : r.Built) (hs : e.store.WellFormed) (h : Sound r e cells)
    (name version year : String) (orgUnit : Option String) :
    Sound r (e.after (.createSession name version year orgUnit)) cells := by
  obtain rfl := h.registry
  refine h.call hs nofun ?_ ?_
  all_goals
    rw [after]
    split
  · obtain ⟨-, -, -, rfl⟩ := createSession_eq_ok ‹_›
    rfl
  · rfl
  · obtain ⟨hversion, hyear, hunit, rfl⟩ := createSession_eq_ok ‹_›
    refine Store.intact_withSession h.intact hs ?_
    exact ⟨has_of_resolve hr hversion, has_of_resolve hr hyear, has_of_resolveOption hr hunit⟩
  · exact h.intact

theorem loadFact (hs : e.store.WellFormed) (h : Sound r e cells) {c : Cell} (hc : c ∈ cells)
    (values : FactValues) : Sound r (e.after (.loadFact c values)) cells := by
  refine h.call hs nofun ?_ ?_
  all_goals
    rw [after]
    split
  · obtain ⟨found, s, -, -, rfl⟩ := loadFact_eq_ok ‹_›
    rfl
  · rfl
  · obtain ⟨found, s, hensure, -, rfl⟩ := loadFact_eq_ok ‹_›
    have hwritten := s.rowsWritten_written (c.inBatch found.1) values fun _ ↦ values
    refine (Store.intact_ensureBatch h.intact hensure).rowsWritten hwritten ?_
    rintro key rfl
    rw [Store.sessions_ensureBatch hensure]
    exact h.cells c hc
  · exact h.intact

theorem run (hr : r.Built) (hs : e.store.WellFormed) (h : Sound r e cells) (call : RunCall) :
    Sound r (e.after (.run call)) cells := by
  obtain rfl := h.registry
  exact h.call hs nofun (e.registry_perform call) (intact_perform hr hs h.intact call)

end Sound

theorem InUse.sound {r : Registry} (hr : r.Built) {e : Engine} {cells : List Cell}
    (h : InUse r e cells) : Sound r e cells := by
  induction h with
  | new ledger catalog options =>
    refine ⟨rfl, ⟨fun id session h ↦ ?_, fun key row h ↦ ?_⟩, by simp⟩
    · cases h
    · cases h
  | createSession h name version year orgUnit ih =>
    exact ih.createSession hr h.reachable.wellFormed name version year orgUnit
  | cell h hc ih =>
    obtain rfl := ih.registry
    have hcell := isRegistered_cell hr
      (fun s hs ↦ ih.intact.sessions _ s (Store.session_eq_ok_iff.mp hs)) hc
    exact { ih with cells := List.forall_mem_cons.mpr ⟨hcell, ih.cells⟩ }
  | loadFact h hc values ih => exact ih.loadFact h.reachable.wellFormed hc values
  | run h call ih => exact ih.run hr h.reachable.wellFormed call
  | setUp h catalog options ih => exact ⟨rfl, ih.intact, ih.cells⟩

/-- **Referential integrity.** However an engine is used from an empty store on, every stored fact
has the version and year of its session, and whatever its cell has on a dimension is the number of
a registered value of that dimension. In particular every extra dimension of the cell is known. -/
theorem stored_facts_registered {r : Registry} (hr : r.Built) {e : Engine} {cells : List Cell}
    (h : InUse r e cells) : ∀ fact ∈ e.store.allFacts,
      (∃ session, e.store.session fact.cell.session = .ok session ∧
        fact.cell.version = session.version ∧ fact.cell.year = session.year) ∧
      (∀ d id, fact.cell.get? d = some id → ∃ v, r.value d id = .ok v ∧ v.id = id) ∧
      ∀ name ∈ fact.cell.extra.keys, .extra name ∈ r.dimensions := by
  intro fact hfact
  obtain ⟨⟨session, hsession, hsame⟩, hcovered⟩ := (h.sound hr).intact.of_mem_allFacts hfact
  refine ⟨⟨session, Store.session_eq_ok_iff.mpr hsession, hsame⟩, hcovered, fun name hname ↦ ?_⟩
  obtain ⟨id, hid⟩ := SortedMap.mem_keys_iff.mp hname
  exact (hcovered (.extra name) id hid).mem_dimensions

/-- Values of sales: one on each dimension that is needed, and one on an extra dimension. -/
private def salesValues : List (Dimension × DimensionValue) :=
  [(.version, { id := 1, code := "P0" }), (.year, { id := 1, code := "2024" }),
    (.period, { id := 1, code := "01" }), (.orgUnit, { id := 1, code := "O1" }),
    (.keyFigure, { id := 1, code := "REV" }), (.extra "Channel", { id := 7, code := "WEB" })]

private def salesRegistry : Registry :=
  match salesValues.foldlM (fun r p ↦ Registry.add r p.1 p.2) .initial with
  | .ok r => r
  | .error _ => .initial

private def salesPlan : Engine :=
  Engine.after { registry := salesRegistry } (.createSession "sales" "P0" "2024" (some "O1"))

/-- A cell of sales with a value on the extra dimension. -/
private def salesCell : Cell :=
  { session := 1, version := 1, year := 1, period := 1, orgUnit := 1, keyFigure := 1,
    extra := .ofList [("Channel", 7)] }

/-- A formula that doubles the sales of the extra dimension. -/
private def doubleSales : PlanFormula :=
  { name := "double", text := "[Channel=WEB].[REV] = [Channel=WEB].[REV] * 2" }

/-- The engine for sales after a fact was loaded, a formula was run and the result was reposted. -/
private def salesUsed : Engine :=
  ((salesPlan.after (.loadFact salesCell { value := ten })).after
    (.run (.formula doubleSales { session := 1, period := some "01" }))).after
      (.run (.function .repost 1))

/-- A fact of sales is loaded, rewritten and reposted, and what is stored is registered. -/
theorem stored_facts_registered_sales :
    (salesUsed.store.find? (salesCell.inBatch 2)).map Fact.value = some (twenty.padTo 4) ∧
      ∀ fact ∈ salesUsed.store.allFacts,
        (∃ session, salesUsed.store.session fact.cell.session = .ok session ∧
          fact.cell.version = session.version ∧ fact.cell.year = session.year) ∧
        (∀ d id, fact.cell.get? d = some id → ∃ v, salesRegistry.value d id = .ok v ∧ v.id = id) ∧
        ∀ name ∈ fact.cell.extra.keys, .extra name ∈ salesRegistry.dimensions := by
  have hadded :
      salesValues.foldlM (fun r p ↦ Registry.add r p.1 p.2) .initial = .ok salesRegistry := by
    decide +kernel
  have hbuilt : salesRegistry.Built :=
    of_foldlM_eq_ok hadded .initial fun _ _ _ _ hr hadd ↦ hr.add hadd
  have hcell : salesPlan.cell 1 "REV" [("Period", "01"), ("Channel", "WEB")] = .ok salesCell := by
    decide +kernel
  have hmade : InUse salesRegistry salesPlan [salesCell] :=
    ((InUse.new _ _ _).createSession _ _ _ _).cell hcell
  have hused : InUse salesRegistry salesUsed [salesCell] :=
    ((hmade.loadFact List.mem_cons_self _).run _).run _
  exact ⟨by decide +kernel, stored_facts_registered hbuilt hused⟩

end Engine

end PlanLedger