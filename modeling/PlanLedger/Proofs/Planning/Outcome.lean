import PlanLedger.Proofs.Formula.Dependence
import PlanLedger.Proofs.Planning.Combinations
import PlanLedger.Proofs.Planning.Runs
import PlanLedger.Proofs.Planning.Settling

/-!
# The outcome of a formula run

A run of a formula that is prepared, outside of a unit of work, comes to one of three things. It
fails as the entry of a combination does; it fails since its entries are too many for the ledger;
or it lists all entries and, unless it is a preview, writes them one after the other. All entries
are calculated from the store as it was before the run: that a unit of work is open by then, and
that a batch may have been added, makes no difference to what is read.

What two runs do can therefore be compared without following their work step by step: it is enough
to compare their plans, their batches and the entries of their combinations.
-/

namespace PlanLedger

open Formula (Bindings CellRef)
open Store (AgreeOn)

/-! ## What an entry is calculated from -/

namespace Engine

/-- All that the value of a combination is read from lies in cells of a kind: what the cells of the
expression reach within the session, and what its look-ups reach in all sessions. -/
structure ValueWithin (e : Engine) (p : RunPlan) (b : Bindings) (cells : Cell → Prop) : Prop where
  reached : ∀ ref, .cell ref ∈ p.compiled.statement.expr.nodes → ∀ keyFigure (f : Filter),
    ref.resolveKeyFigure e.registry b = .ok keyFigure →
      ∀ c, Filter.selects (f.insert .keyFigure keyFigure) p.frame.scope c = true → cells c
  lookedUp : ∀ call data, .reference call ∈ p.compiled.statement.expr.nodes →
    ∀ keyFigure (f : Filter), e.catalog.reference call.name = .ok data →
      e.registry.resolve .keyFigure data.keyFigure = .ok keyFigure →
        ∀ c, Filter.selects (f.insert .keyFigure keyFigure) {} c = true → cells c

/-- All that the entry of a combination is read from lies in cells of a kind: the cell that it
assigns, and what its value is read from. -/
structure ReadsWithin (e : Engine) (p : RunPlan) (b : Bindings) (cells : Cell → Prop) : Prop
    extends ValueWithin e p b cells where
  assigned : ∀ c name,
    target e.registry p.frame b p.compiled.statement.target = .ok (c, name) → cells c

variable {e : Engine} {f : PlanFormula} {p : RunPlan} {cells : Cell → Prop} {s s' : Store}

theorem combinationValue_congr {b : Bindings} (hwithin : e.ValueWithin p b cells)
    (h : AgreeOn cells s s') : e.combinationValue s f p b = e.combinationValue s' f p b := by
  have hcell : ∀ ref, .cell ref ∈ p.compiled.statement.expr.nodes →
      ref.evaluate ⟨s, e.registry, p.frame.scope, b⟩ =
        ref.evaluate ⟨s', e.registry, p.frame.scope, b⟩ := fun ref href ↦
    CellRef.evaluate_congr h (hwithin.reached ref href)
  rw [combinationValue, combinationValue]
  by_cases hreferences : p.compiled.hasReferences = true
  · rw [if_pos hreferences, if_pos hreferences]
    let x : Formula.ReferenceContext :=
      { store := s, registry := e.registry, catalog := e.catalog,
        version := f.referenceVersion, year := f.referenceYear }
    have hsubstitute : x.substitute b p.compiled.statement.expr =
        { x with store := s' }.substitute b p.compiled.statement.expr :=
      Formula.ReferenceContext.substitute_congr fun call hcall ↦
        Formula.ReferenceContext.value_congr h fun data ↦ hwithin.lookedUp call data hcall
    show (x.substitute b p.compiled.statement.expr >>= _) =
      ({ x with store := s' }.substitute b p.compiled.statement.expr >>= _)
    rw [← hsubstitute]
    cases hexpr : x.substitute b p.compiled.statement.expr with
    | error err => rfl
    | ok expr =>
      exact Formula.evaluateScalar_congr fun ref href ↦
        hcell ref (Formula.ReferenceContext.cell_mem_of_substitute hexpr href)
  · rw [if_neg hreferences, if_neg hreferences]
    exact Formula.evaluateScalar_congr hcell

/-- **An entry depends on what it is read from.** It is the same in two stores that agree on all
cells it is read from. -/
theorem combinationEntry_congr {b : Bindings} {batch : BatchId} (hwithin : e.ReadsWithin p b cells)
    (h : AgreeOn cells s s') :
    e.combinationEntry s f p batch b = e.combinationEntry s' f p batch b := by
  rw [combinationEntry, combinationEntry, combinationValue_congr hwithin.toValueWithin h]
  cases htarget : target e.registry p.frame b p.compiled.statement.target with
  | error err => rfl
  | ok found =>
    obtain ⟨c, name⟩ := found
    simp only [ok_bind, h.currentValue_eq (hwithin.assigned c name htarget)]

theorem combinationEntry_eq_of_facts_eq (h : s.facts = s'.facts) (batch : BatchId) (b : Bindings) :
    e.combinationEntry s f p batch b = e.combinationEntry s' f p batch b := by
  have hwithin : e.ReadsWithin p b fun _ ↦ True :=
    ⟨⟨fun _ _ _ _ _ _ _ ↦ trivial, fun _ _ _ _ _ _ _ _ _ ↦ trivial⟩, fun _ _ _ ↦ trivial⟩
  exact combinationEntry_congr hwithin (.of_facts_eq h)

end Engine

/-! ## The unit of work -/

namespace Store

theorem saved_ensureBatch {s s' : Store} {session : SessionId} {found : BatchId × Batch}
    (h : s.ensureBatch session = .ok (found, s')) : s'.saved = s.saved :=
  (edit_ensureBatch h).saved_eq

end Store

/-- Writing does not look at what a unit of work has saved. -/
theorem Write.applyAll_withSaved (s : Store) (saved : Option Contents) (ws : List Write) :
    applyAll { s with saved } ws = { applyAll s ws with saved } := by
  induction ws generalizing s with
  | nil => rfl
  | cons w rest ih => exact ih (w.applyTo s)

theorem Write.saved_applyAll (s : Store) (ws : List Write) : (applyAll s ws).saved = s.saved := by
  induction ws generalizing s with
  | nil => rfl
  | cons w rest ih => exact ih (w.applyTo s)

/-- What is written in a unit of work, outside of which there was none, is what is left when the
unit is over. -/
theorem Write.applyAll_of_saved {s : Store} (h : s.saved = none) (saved : Option Contents)
    (ws : List Write) : { applyAll { s with saved } ws with saved := none } = applyAll s ws := by
  have hafter := (saved_applyAll s ws).trans h
  rw [applyAll_withSaved]
  generalize applyAll s ws = after at hafter ⊢
  cases after
  cases hafter
  rfl

/-! ## Outcomes -/

namespace Engine

variable {e : Engine} {f : PlanFormula} {request : RunRequest} {p : RunPlan}

/-- The run that the ledger has after entries are listed under it. -/
def listed (f : PlanFormula) (request : RunRequest) (entries : List Entry) : Run :=
  Write.listAll { source := .formula f.name, preview := request.preview }
    (entries.map Entry.toWrite)

theorem runFormula_eq_of_error (hplan : e.plan f request = .ok p)
    (hfree : e.store.inUnit = false) {err : PlanningError} {worked : Books}
    (h : (e.runWork f p request.preview e.nextRun).run
      (e.begun (.formula f.name) request.preview) = .error err worked) :
    ∃ e', e.runFormula f request = (.error err, e') ∧ e.FailsWith err e' := by
  obtain ⟨e', hunder, hfails⟩ := underRun_of_error (.formula f.name) request.preview
    (e.under_runWork f p request.preview) hfree h
  exact ⟨e', by simp only [runFormula, hplan, hunder], hfails⟩

theorem runFormula_eq_of_ok (hplan : e.plan f request = .ok p) (hfree : e.store.inUnit = false)
    {worked : Books} {run : Run}
    (h : (e.runWork f p request.preview e.nextRun).run
      (e.begun (.formula f.name) request.preview) = .ok () worked)
    (hlisted : worked.ledger.run? e.nextRun = some run) :
    e.runFormula f request = (.ok { run with id := e.nextRun },
      { e with
        store := if request.preview = true then e.store else { worked.store with saved := none }
        ledger := worked.ledger }) := by
  have hunder := underRun_of_ok (.formula f.name) request.preview
    (e.under_runWork f p request.preview) hfree h
  simp only [runFormula, hplan, hunder, hlisted]

theorem plan_withStore {store : Store} (ledger : Ledger)
    (h : store.session request.session = e.store.session request.session) :
    { e with store, ledger }.plan f request = e.plan f request := by
  rw [plan, plan, h]
  rfl

/-- What a run comes to that is prepared and writes to a batch of a store: it fails at the entry of
a combination, or there is no room for its entries, or they are listed and written. -/
inductive Outcome (e : Engine) (f : PlanFormula) (request : RunRequest) (p : RunPlan)
    (batch : BatchId) (s : Store) : Except PlanningError RunReport → Engine → Prop
  | failed (err : Formula.FormulaError) (e' : Engine)
      (entries_eq : p.combinations.mapM (e.combinationEntry e.store f p batch) = .error err)
      (fails : e.FailsWith (.formula err) e') :
      Outcome e f request p batch s (.error (.formula err)) e'
  | full (entries : List Entry) (e' : Engine)
      (entries_eq : p.combinations.mapM (e.combinationEntry e.store f p batch) = .ok entries)
      (full : maxEntries < entries.length)
      (fails : e.FailsWith (.ledger (.fullRun e.nextRun)) e') :
      Outcome e f request p batch s (.error (.ledger (.fullRun e.nextRun))) e'
  | done (entries : List Entry) (ledger : Ledger)
      (entries_eq : p.combinations.mapM (e.combinationEntry e.store f p batch) = .ok entries)
      (room : entries.length ≤ maxEntries) (lastRun : ledger.lastRun = e.nextRun)
      (runs : ∀ id, ledger.run? id =
        if id = e.nextRun then some (listed f request entries) else e.ledger.run? id) :
      Outcome e f request p batch s (.ok { listed f request entries with id := e.nextRun })
        { e with
          store := if request.preview = true then e.store
            else Write.applyAll s (entries.map Entry.toWrite)
          ledger }

/-- The books of a run that has found its batch in a store. -/
private def atBatch (e : Engine) (f : PlanFormula) (preview : Bool) (s : Store) : Books :=
  { e.begun (.formula f.name) preview with store := { s with saved := some e.store.toContents } }

/-- The work of a run, with its entries calculated from the store as it was before the run. -/
private theorem run_runWork_begun (hp : e.Plans f request p) {batch : BatchId} {stored : Batch}
    {s : Store} (hensure : e.store.ensureBatch request.session = .ok ((batch, stored), s)) :
    (e.runWork f p request.preview e.nextRun).run (e.begun (.formula f.name) request.preview) =
      match p.combinations.mapM (e.combinationEntry e.store f p batch) with
      | .error err => .error (.formula err) (e.atBatch f request.preview s)
      | .ok entries => (entries.forM (settleEntry e.nextRun request.preview)).run
          (e.atBatch f request.preview s) := by
  have hopened : (e.begun (.formula f.name) request.preview).store.ensureBatch p.frame.sessionId =
      .ok ((batch, stored), (e.atBatch f request.preview s).store) := by
    rw [hp.session_id]
    refine (Store.ensureBatch_withSaved e.store _ request.session).trans ?_
    rw [hensure]
    rfl
  have hfacts : (e.atBatch f request.preview s).store.facts = e.store.facts := by
    show s.facts = e.store.facts
    exact Store.facts_ensureBatch hensure
  rw [run_runWork, hopened]
  dsimp only
  rw [mapM_congr fun b _ ↦ combinationEntry_eq_of_facts_eq hfacts batch b]
  rfl

private theorem store_after_writes {preview : Bool} {s worked : Store} {ws : List Write}
    (hfree : s.saved = none)
    (h : worked = if preview = true then { s with saved := some e.store.toContents } else
      Write.applyAll { s with saved := some e.store.toContents } ws) :
    (if preview = true then e.store else { worked with saved := none }) =
      if preview = true then e.store else Write.applyAll s ws := by
  by_cases hpreview : preview = true
  · rw [if_pos hpreview, if_pos hpreview]
  · rw [if_neg hpreview, if_neg hpreview]
    rw [if_neg hpreview, Write.applyAll_withSaved] at h
    have hsaved : (Write.applyAll s ws).saved = none := (Write.saved_applyAll s ws).trans hfree
    rw [h, ← hsaved]

/-- **The outcome of a run.** Outside of a unit of work a run that is prepared has a batch to write
to, and it has one of the three outcomes. -/
theorem exists_outcome (hplan : e.plan f request = .ok p) (hfree : e.store.inUnit = false) :
    ∃ batch stored s, e.store.ensureBatch request.session = .ok ((batch, stored), s) ∧
      e.Outcome f request p batch s (e.runFormula f request).1 (e.runFormula f request).2 := by
  have hp := plan_eq_ok hplan
  obtain ⟨⟨⟨batch, stored⟩, s⟩, hensure⟩ := Store.exists_ensureBatch hp.session
  refine ⟨batch, stored, s, hensure, ?_⟩
  have hwork := run_runWork_begun hp hensure
  have hlisted : (e.atBatch f request.preview s).ledger.run? e.nextRun = _ :=
    run?_begun (.formula f.name) request.preview
  cases hentries : p.combinations.mapM (e.combinationEntry e.store f p batch) with
  | error err =>
    rw [hentries] at hwork
    obtain ⟨e', hrun, hfails⟩ := runFormula_eq_of_error hplan hfree hwork
    rw [hrun]
    exact .failed err e' hentries hfails
  | ok entries =>
    rw [hentries] at hwork
    dsimp only at hwork
    have haccepted : ∀ entry ∈ entries,
        (e.atBatch f request.preview s).store.checkKey entry.key = .ok () := by
      intro entry hentry
      have hof := entryOf_mem hentries entry hentry
      rw [hp.session_id] at hof
      have haccepted : s.checkKey entry.key = .ok () :=
        hof.checkKey (Store.ensureBatch_eq_ok hensure).1
      exact haccepted
    by_cases hroom : entries.length ≤ maxEntries
    · have hadmits : Admits e.nextRun entries (e.atBatch f request.preview s) :=
        ⟨⟨_, hlisted, by simpa using hroom⟩, haccepted⟩
      obtain ⟨worked, hsettled⟩ := hadmits.run_forM_settleEntry request.preview
      obtain ⟨hstore, hrun⟩ := settled_eq hlisted hsettled
      rw [hsettled] at hwork
      have hmoved := e.under_runWork f p request.preview e.nextRun
        (e.begun (.formula f.name) request.preview)
      rw [Working.after_of_ok hwork] at hmoved
      have hunit : s.saved = none := by
        rw [Store.saved_ensureBatch hensure]
        simpa [Store.inUnit] using hfree
      rw [runFormula_eq_of_ok hplan hfree hwork hrun, store_after_writes hunit hstore]
      refine .done entries worked.ledger hentries hroom hmoved.lastRun fun id ↦ ?_
      by_cases hid : id = e.nextRun
      · rw [if_pos hid, hid]
        exact hrun
      · rw [if_neg hid, hmoved.others id hid]
        exact (Ledger.run?_beginRun _ _ _ _).trans (if_neg hid)
    · have hrefused : ∃ worked, (entries.forM (settleEntry e.nextRun request.preview)).run
          (e.atBatch f request.preview s) = .error (.ledger (.fullRun e.nextRun)) worked :=
        settle_full hlisted haccepted (Nat.zero_le _) (by simpa using Nat.lt_of_not_le hroom)
      obtain ⟨worked, hrefused⟩ := hrefused
      rw [hrefused] at hwork
      obtain ⟨e', hrun, hfails⟩ := runFormula_eq_of_error hplan hfree hwork
      rw [hrun]
      exact .full entries e' hentries (Nat.lt_of_not_le hroom) hfails

/-! ## Runs that succeed -/

/-- A run that succeeds: it is prepared, has a batch of a store to write to, and has room for the
entries of its combinations. -/
structure Calculates (e : Engine) (f : PlanFormula) (request : RunRequest) (p : RunPlan)
    (batch : BatchId) (s : Store) (entries : List Entry) : Prop where
  plan : e.plan f request = .ok p
  free : e.store.inUnit = false
  writesTo : ∃ stored, e.store.ensureBatch request.session = .ok ((batch, stored), s)
  calculated : p.combinations.mapM (e.combinationEntry e.store f p batch) = .ok entries
  room : entries.length ≤ maxEntries

/-- A run that succeeds lists its entries and, unless it is a preview, writes them. -/
theorem Calculates.runFormula_eq {batch : BatchId} {s : Store} {entries : List Entry}
    (h : e.Calculates f request p batch s entries) :
    ∃ ledger : Ledger, ledger.lastRun = e.nextRun ∧
      e.runFormula f request = (.ok { listed f request entries with id := e.nextRun },
        { e with
          store := if request.preview = true then e.store
            else Write.applyAll s (entries.map Entry.toWrite)
          ledger }) := by
  obtain ⟨stored, hensure⟩ := h.writesTo
  obtain ⟨batch', stored', s', hensure', houtcome⟩ := exists_outcome h.plan h.free
  rw [hensure] at hensure'
  cases hensure'
  generalize hresult : (e.runFormula f request).1 = result at houtcome
  generalize hafter : (e.runFormula f request).2 = after at houtcome
  cases houtcome with
  | failed err _ heq =>
    rw [h.calculated] at heq
    cases heq
  | full entries' _ heq hfull =>
    rw [h.calculated] at heq
    cases heq
    exact absurd h.room (Nat.not_le_of_lt hfull)
  | done entries' ledger heq _ hlast _ =>
    rw [h.calculated] at heq
    cases heq
    exact ⟨ledger, hlast, Prod.ext hresult hafter⟩

/-- Only such runs succeed. -/
theorem exists_calculates {report : RunReport} (h : (e.runFormula f request).1 = .ok report) :
    ∃ p batch s entries, e.Calculates f request p batch s entries ∧
      report = { listed f request entries with id := e.nextRun } := by
  cases hplan : e.plan f request with
  | error err =>
    simp only [runFormula, hplan] at h
    cases h
  | ok p =>
    by_cases hactive : e.store.inUnit = true
    · rw [runFormula_of_active hplan hactive] at h
      cases h
    · have hfree := Bool.eq_false_iff.mpr hactive
      obtain ⟨batch, stored, s, hensure, houtcome⟩ := exists_outcome hplan hfree
      rw [h] at houtcome
      generalize (e.runFormula f request).2 = after at houtcome
      cases houtcome with
      | done entries ledger heq hroom _ _ =>
        exact ⟨p, batch, s, entries, ⟨hplan, hfree, ⟨stored, hensure⟩, heq, hroom⟩, rfl⟩

/-- The entries of a run as the ledger has them are those that were listed, in their order. -/
theorem toEntry_listed (f : PlanFormula) (request : RunRequest) (entries : List Entry) :
    (listed f request entries).entries.map RunEntry.toEntry = entries := by
  rw [listed, Write.entries_listAll, List.map_map]
  exact List.map_id entries

end Engine

end PlanLedger
