import PlanLedger.Proofs.Planning.Frame
import PlanLedger.Proofs.Planning.Outcome
import PlanLedger.Proofs.Planning.Written

/-!
# Amending facts in place

Converting units and setting facts to zero are of one kind: they go through the current facts of a
session that a filter selects, and decide about each fact by itself. A fact is left as it is, or it
is left and reported, or it is restated, which gives it new values under its key.

As the facts are facts of different cells, no restatement meets another one. After the run each fact
is what was decided about it, everything else is as it was, and the same selection lists the same
facts, amended. Hence a second run decides about the amended facts: if a fact that was restated is
left alone then, the second run writes nothing.
-/

namespace PlanLedger

open Engine (Admits)

/-! ## What becomes of a fact -/

/-- What becomes of a fact: it is left as it is, it is left and reported, or it gets new values. -/
inductive Fate where
  | left
  | reported (fault : RowFault)
  | restated (values : FactValues)
deriving DecidableEq

namespace Fate

/-- The new values of a fact that is restated. -/
def values? : Fate → Option FactValues
  | restated values => some values
  | _ => none

/-- Why a fact is reported. -/
def fault? : Fate → Option RowFault
  | reported fault => some fault
  | _ => none

def apply (fate : Fate) (fact : Fact) : Fact :=
  { fact with values := fate.values?.getD fact.values }

theorem apply_of_values?_eq_none {fate : Fate} (h : fate.values? = none) (fact : Fact) :
    fate.apply fact = fact := by
  rw [apply, h]
  rfl

end Fate

/-- The entry of giving new values to a fact. -/
def Registry.restatement (r : Registry) (fact : Fact) (values : FactValues) : Entry :=
  { key := fact.key, cellName := r.cellName fact.cell, oldValue := fact.value,
    newValue := values.value }

/-- The report of a fact. -/
def Registry.report (r : Registry) (fact : Fact) (fault : RowFault) : RowError :=
  { cellName := r.cellName fact.cell, fault }

/-- A way to amend facts: what becomes of each fact, the work on it, and the write that gives it its
new values, if it is restated. -/
structure Amendment (x : WorkContext) where
  fate : Fact → Fate
  step : Fact → Working Tally
  write : Fact → FactValues → Write
  entry_eq : ∀ fact values, (write fact values).entry = x.registry.restatement fact values
  change_eq : ∀ fact values, fate fact = .restated values →
    (write fact values).change fact.values = values
  does : ∀ fact, Working.Does x.run ((fate fact).values?.map (write fact)).toList
    ((fate fact).fault?.map (x.registry.report fact)).toList (step fact)

namespace Amendment

variable {x : WorkContext} (a : Amendment x)

/-- The writes of the facts that are restated. -/
def writes (facts : List Fact) : List Write :=
  facts.filterMap fun fact ↦ (a.fate fact).values?.map (a.write fact)

end Amendment

/-- The reports of the facts that are reported. -/
def Registry.reports (r : Registry) (fate : Fact → Fate) (facts : List Fact) : List RowError :=
  facts.filterMap fun fact ↦ (fate fact).fault?.map (r.report fact)

/-- The entries of the facts that are restated. -/
def Registry.restatements (r : Registry) (fate : Fact → Fate) (facts : List Fact) : List Entry :=
  facts.filterMap fun fact ↦ (fate fact).values?.map (r.restatement fact)

namespace Amendment

variable {x : WorkContext} (a : Amendment x) {facts : List Fact}

theorem map_entry_writes (facts : List Fact) :
    (a.writes facts).map Write.entry = x.registry.restatements a.fate facts := by
  rw [writes, List.map_filterMap, Registry.restatements]
  refine List.filterMap_congr fun fact _ ↦ ?_
  rw [Option.map_map]
  congr 1
  funext values
  exact a.entry_eq fact values

theorem mem_writes_iff {w : Write} : w ∈ a.writes facts ↔
    ∃ fact ∈ facts, ∃ values, a.fate fact = .restated values ∧ a.write fact values = w := by
  rw [writes, List.mem_filterMap]
  refine exists_congr fun fact ↦ and_congr_right fun _ ↦ ?_
  cases a.fate fact <;> simp [Fate.values?]

theorem does_tallyOver (facts : List Fact) :
    Working.Does x.run (a.writes facts) (x.registry.reports a.fate facts)
      (tallyOver a.step facts) := by
  have hall := Working.Does.tallyOver fun fact (_ : fact ∈ facts) ↦ a.does fact
  rwa [← List.filterMap_eq_flatMap_toList, ← List.filterMap_eq_flatMap_toList] at hall

end Amendment

/-! ## The store afterwards -/

/-- Facts of a store were amended: each of them is what has become of it, under its key and as the
current fact of its cell, and nothing else was changed. -/
structure Store.Amended (s s' : Store) (facts : List Fact) (fate : Fact → Fate) : Prop where
  found : ∀ fact ∈ facts, s'.find? fact.key = some ((fate fact).apply fact)
  current : ∀ fact ∈ facts, s'.currentFact? fact.cell = some ((fate fact).apply fact)
  otherKeys : ∀ key, (∀ fact ∈ facts, fact.key ≠ key) → s'.find? key = s.find? key
  otherCells : ∀ c, (∀ fact ∈ facts, fact.cell ≠ c) → s'.currentFact? c = s.currentFact? c
  batches : s'.batches = s.batches
  sessions : s'.sessions = s.sessions
  /-- Where no fact is restated, nothing is changed at all. -/
  unchanged : (∀ fact ∈ facts, (fate fact).values? = none) → s' = s

/-- A fact that is written once in its place has its number and the values that the write makes of
its own. -/
theorem Write.find?_applyAll {s : Store} {ws : List Write} (hdiffer : OnDifferentCells ws)
    {w : Write} (hw : w ∈ ws) {fact : Fact} (hfact : s.find? w.key = some fact) :
    (applyAll s ws).find? w.key = some { fact with values := w.change fact.values } := by
  obtain ⟨row, hrow, rfl⟩ := Option.map_eq_some_iff.mp hfact
  obtain ⟨row', hrow', hid⟩ := (rowsWritten_applyAll s ws).rows w.key row hrow
  have hvalues := values?_applyAll (s := s) hdiffer hw
  have hfound : (applyAll s ws).find? w.key = some (row'.toFact w.key) := by
    rw [Store.find?, hrow', Option.map_some]
  rw [Store.values?, Store.values?, hfact, hfound] at hvalues
  have hnew : row'.values = w.change row.values := Option.some_inj.mp hvalues
  rw [hfound, Row.toFact, Row.toFact, hid, hnew]

namespace Amendment

variable {x : WorkContext} (a : Amendment x) {facts : List Fact} {s : Store}

theorem key_write (fact : Fact) (values : FactValues) : (a.write fact values).key = fact.key := by
  rw [Write.key, a.entry_eq]
  rfl

theorem truthful_write {fact : Fact} (h : s.IsNewest fact) (values : FactValues) :
    (a.write fact values).Truthful s s.placeOf := by
  refine h.truthful (a.key_write fact values) ?_
  rw [a.entry_eq]
  rfl

theorem onDifferentCells_writes (h : facts.Pairwise fun a b ↦ compare a.cell b.cell = .lt) :
    Write.OnDifferentCells (a.writes facts) := by
  refine List.pairwise_filterMap.mpr (h.imp fun {fact fact'} hlt w hw w' hw' hcell ↦ ?_)
  obtain ⟨values, -, rfl⟩ := Option.map_eq_some_iff.mp hw
  obtain ⟨values', -, rfl⟩ := Option.map_eq_some_iff.mp hw'
  rw [a.key_write, a.key_write] at hcell
  have hsame : fact.cell = fact'.cell := hcell
  rw [hsame, Std.compare_self] at hlt
  cases hlt

/-- After the writes of facts of different cells, all of them current, each fact is what has become
of it. -/
theorem find?_applyAll_writes
    (hincreasing : facts.Pairwise fun a b ↦ compare a.cell b.cell = .lt)
    (hnewest : ∀ fact ∈ facts, s.IsNewest fact) {fact : Fact} (hfact : fact ∈ facts) :
    (Write.applyAll s (a.writes facts)).find? fact.key = some ((a.fate fact).apply fact) := by
  have hstored : s.find? fact.key = some fact :=
    Store.find?_eq_some_iff.mpr ⟨(hnewest fact hfact).mem, rfl⟩
  cases hvalues : (a.fate fact).values? with
  | some values =>
    have hfate : a.fate fact = .restated values := by
      cases hfate : a.fate fact <;> rw [hfate] at hvalues <;> cases hvalues
      rfl
    have hw : a.write fact values ∈ a.writes facts :=
      a.mem_writes_iff.mpr ⟨fact, hfact, values, hfate, rfl⟩
    have hheld : s.find? (a.write fact values).key = some fact := by rw [a.key_write, hstored]
    have hfind := Write.find?_applyAll (a.onDifferentCells_writes hincreasing) hw hheld
    rw [a.key_write, a.change_eq fact values hfate] at hfind
    rw [hfind, Fate.apply, hvalues]
    rfl
  | none =>
    rw [Fate.apply_of_values?_eq_none hvalues, ← hstored]
    refine Write.find?_applyAll_of_forall_ne fun w hw hkey ↦ ?_
    -- A write under the key would be one of the fact itself.
    obtain ⟨fact', hfact', values, hfate, rfl⟩ := a.mem_writes_iff.mp hw
    rw [a.key_write] at hkey
    obtain rfl := Store.eq_of_key_eq (hnewest fact' hfact').mem (hnewest fact hfact).mem hkey
    rw [hfate] at hvalues
    cases hvalues

/-- **Facts that are amended.** After the writes of facts of different cells, all of them current,
each fact is what has become of it, under its key and for its cell, and nothing else is changed. -/
theorem amended_applyAll (hincreasing : facts.Pairwise fun a b ↦ compare a.cell b.cell = .lt)
    (hnewest : ∀ fact ∈ facts, s.IsNewest fact) :
    s.Amended (Write.applyAll s (a.writes facts)) facts a.fate := by
  have htruthful : ∀ w ∈ a.writes facts, w.Truthful s s.placeOf := by
    intro w hw
    obtain ⟨fact, hfact, values, -, rfl⟩ := a.mem_writes_iff.mp hw
    exact a.truthful_write (hnewest fact hfact) values
  have hrows := Write.rowsWritten_applyAll s (a.writes facts)
  have hfound : ∀ fact ∈ facts,
      (Write.applyAll s (a.writes facts)).find? fact.key = some ((a.fate fact).apply fact) :=
    fun _ ↦ a.find?_applyAll_writes hincreasing hnewest
  refine ⟨hfound, fun fact hfact ↦ ?_, fun key hkey ↦ ?_, fun c hc ↦ ?_, hrows.batches,
    hrows.sessions, fun hnone ↦ ?_⟩
  · have hon := (a.truthful_write (hnewest fact hfact) fact.values).noneNewer_applyAll htruthful
    rw [a.key_write] at hon
    have hmem := (Store.find?_eq_some_iff.mp (hfound fact hfact)).1
    exact Store.currentFact?_eq_some_iff.mpr ⟨⟨hmem, hon⟩, rfl⟩
  · refine Write.find?_applyAll_of_forall_ne fun w hw hsame ↦ ?_
    obtain ⟨fact, hfact, values, -, rfl⟩ := a.mem_writes_iff.mp hw
    exact hkey fact hfact ((a.key_write fact values).symm.trans hsame)
  · refine Write.currentFact?_applyAll_of_forall_ne fun w hw hsame ↦ ?_
    obtain ⟨fact, hfact, values, -, rfl⟩ := a.mem_writes_iff.mp hw
    rw [a.key_write] at hsame
    exact hc fact hfact hsame
  · have hnil : a.writes facts = [] := List.filterMap_eq_nil_iff.mpr fun fact hfact ↦ by
      rw [hnone fact hfact, Option.map_none]
    rw [hnil]
    rfl

end Amendment

namespace Store

variable {s s' : Store} {f : Filter} {scope : Scope} {fate : Fact → Fate}

theorem Amended.selectCurrent_eq (h : s.Amended s' (s.selectCurrent f scope) fate) :
    s'.selectCurrent f scope =
      (s.selectCurrent f scope).map fun fact ↦ (fate fact).apply fact := by
  -- Both lists increase by cell, so it is enough that they have the same members.
  refine eq_of_increasing (f := Fact.cell) (selectCurrent_increasing s' f scope)
    (List.pairwise_map.mpr (selectCurrent_increasing s f scope)) fun fact ↦ ?_
  rw [mem_selectCurrent_iff, List.mem_map]
  constructor
  · rintro ⟨hnewest, hselects⟩
    have hcurrent := currentFact?_eq_some_iff.mpr ⟨hnewest, rfl⟩
    by_cases hold : ∃ before ∈ s.selectCurrent f scope, before.cell = fact.cell
    · obtain ⟨before, hbefore, hcell⟩ := hold
      refine ⟨before, hbefore, ?_⟩
      rw [← hcell, h.current before hbefore, Option.some_inj] at hcurrent
      exact hcurrent
    · -- A cell that the selection reaches and that had no fact before has none now.
      rw [h.otherCells _ fun before hbefore hcell ↦ hold ⟨before, hbefore, hcell⟩] at hcurrent
      have hmem := mem_selectCurrent_iff.mpr ⟨(currentFact?_eq_some_iff.mp hcurrent).1, hselects⟩
      exact absurd ⟨fact, hmem, rfl⟩ hold
  · rintro ⟨before, hbefore, rfl⟩
    have hcurrent := h.current before hbefore
    exact ⟨(currentFact?_eq_some_iff.mp hcurrent).1, (mem_selectCurrent_iff.mp hbefore).2⟩

end Store

/-! ## Runs that amend facts -/

/-- A planning function that amends the current facts of a session that a filter selects. -/
def PlanningFunction.Amends (f : PlanningFunction) (x : WorkContext) (selection : Filter)
    (fate : Fact → Fate) : Prop :=
  ∃ a : Amendment x, a.fate = fate ∧ ∀ b : Books,
    (f.work x).run b = (tallyOver a.step (b.store.selectCurrent selection x.scope)).run b

/-- What is reported of a run that amends facts. -/
structure FunctionOutcome.OfAmended (outcome : FunctionOutcome) (r : Registry) (facts : List Fact)
    (fate : Fact → Fate) : Prop where
  affected : outcome.affected = (r.restatements fate facts).length
  errors : outcome.errors = r.reports fate facts
  entries : outcome.entries.map RunEntry.toEntry = r.restatements fate facts

namespace Engine

variable {e : Engine} {f : PlanningFunction} {id : SessionId} {selection : Filter}
  {fate : Fact → Fate} {outcome : FunctionOutcome}

/-- **Runs that amend facts.** A run that succeeds amends the facts that are selected, and reports
what has become of them. -/
theorem amended_runFunction
    (hf : ∀ session run, f.Amends (e.workContext id session run) selection fate)
    (hrun : (e.runFunction f id).1 = .ok outcome) :
    e.store.Amended (e.runFunction f id).2.store (e.store.selectCurrent selection (.ofSession id))
        fate ∧
      outcome.OfAmended e.registry (e.store.selectCurrent selection (.ofSession id)) fate := by
  obtain ⟨hsaved, session, tally, worked, -, hwork, rfl, hstore⟩ := exists_work_of_runFunction hrun
  obtain ⟨a, rfl, hsame⟩ := hf session e.nextRun
  rw [hsame] at hwork
  obtain ⟨rfl, hwrote⟩ := (a.does_tallyOver _).writes _ tally worked hwork
  generalize hfacts : e.store.selectCurrent selection (.ofSession id) = facts
  have hselected : (e.begun (.function f.kind) false).store.selectCurrent selection
      (e.workContext id session e.nextRun).scope = facts := hfacts
  rw [hselected] at hwrote ⊢
  have hleft : (e.runFunction f id).2.store = Write.applyAll e.store (a.writes facts) := by
    rw [hstore, hwrote.store]
    exact Write.applyAll_of_saved hsaved _ _
  have hlisted := hwrote.entries_eq (run?_begun _ _)
  have hentries : (worked.ledger.entries e.nextRun).map RunEntry.toEntry =
      e.registry.restatements a.fate facts :=
    (congrArg (List.map RunEntry.toEntry) hlisted).trans
      ((Write.entries_listAll _ _).trans (a.map_entry_writes facts))
  refine ⟨?_, ?_, rfl, hentries⟩
  · rw [hleft]
    subst hfacts
    exact a.amended_applyAll (Store.selectCurrent_increasing _ _ _) fun fact hfact ↦
      (Store.mem_selectCurrent_iff.mp hfact).1
  · show (a.writes facts).length = _
    rw [← List.length_map (f := Write.entry), a.map_entry_writes]
    rfl

/-- A run that amends facts succeeds on a session that there is, outside of a unit of work, if there
is room for its entries. -/
theorem exists_outcome_of_amends (hs : e.store.WellFormed)
    (hf : ∀ session run, f.Amends (e.workContext id session run) selection fate)
    {session : Session} (hsession : e.sessionOfWork id = .ok session)
    (hfree : e.store.inUnit = false)
    (hroom : (e.registry.restatements fate
      (e.store.selectCurrent selection (.ofSession id))).length ≤ maxEntries) :
    ∃ outcome, (e.runFunction f id).1 = .ok outcome := by
  obtain ⟨a, rfl, hsame⟩ := hf session e.nextRun
  generalize hfacts : e.store.selectCurrent selection (.ofSession id) = facts at hroom
  have hadmits : Admits e.nextRun ((a.writes facts).map Write.entry ++ [])
      (e.begun (.function f.kind) false) := by
    refine ⟨⟨_, run?_begun _ _, ?_⟩, fun entry hentry ↦ ?_⟩
    · rw [List.append_nil, a.map_entry_writes, List.length_nil, Nat.zero_add]
      exact hroom
    · rw [List.append_nil] at hentry
      obtain ⟨w, hw, rfl⟩ := List.mem_map.mp hentry
      obtain ⟨fact, hfact, values, -, rfl⟩ := a.mem_writes_iff.mp hw
      rw [a.entry_eq]
      -- The batch of a stored fact belongs to the session of its cell.
      rw [← hfacts] at hfact
      have hmem := (Store.mem_selectCurrent_iff.mp hfact).1.mem
      exact Store.checkKey_eq_ok_iff.mpr (hs.exists_batch hmem)
  obtain ⟨tally, worked, hwork, -⟩ := (a.does_tallyOver facts).succeeds [] _ hadmits
  have hrun : (f.work (e.workContext id session e.nextRun)).run (e.begun (.function f.kind) false) =
      .ok tally worked := by
    rw [hsame, ← hwork, ← hfacts]
    rfl
  exact ⟨_, runFunction_of_ok hsession hfree hrun⟩

/-- Of an engine only the store and the ledger are changed by a planning function that succeeds, and
no unit of work is open then. -/
theorem exists_after_of_runFunction (h : (e.runFunction f id).1 = .ok outcome) :
    ∃ session, e.sessionOfWork id = .ok session ∧ ∃ store ledger, store.saved = none ∧
      (e.runFunction f id).2 = { e with store, ledger } := by
  cases hsession : e.sessionOfWork id with
  | error err =>
    simp only [runFunction, hsession] at h
    cases h
  | ok session =>
    rcases runFunction_cases (f := f) hsession with
      ⟨err, e', heq, -⟩ | ⟨-, tally, worked, -, -, heq⟩
    · rw [heq] at h
      cases h
    · exact ⟨session, rfl, _, _, rfl, by rw [heq]⟩

theorem sessionOfWork_withStore {store : Store} (ledger : Ledger)
    (h : store.sessions = e.store.sessions) (id : SessionId) :
    sessionOfWork { e with store, ledger } id = e.sessionOfWork id := by
  rw [sessionOfWork, sessionOfWork]
  show (do e.options.validate; PlanningError.ofStore (store.session id)) = _
  rw [Store.session, Store.session, h]

/-- **A second run.** If a fact that is restated is left alone as it is then, a second run succeeds.
It writes nothing and lists nothing, and it reports the same facts again. -/
theorem rerun_of_amends (hs : e.store.WellFormed)
    (hf : ∀ session run, f.Amends (e.workContext id session run) selection fate)
    (hsettled : ∀ fact values, fate fact = .restated values → fate { fact with values } = .left)
    (hrun : (e.runFunction f id).1 = .ok outcome) :
    ∃ again, ((e.runFunction f id).2.runFunction f id).1 = .ok again ∧ again.affected = 0 ∧
      again.entries = [] ∧ again.errors = outcome.errors ∧
      ((e.runFunction f id).2.runFunction f id).2.store = (e.runFunction f id).2.store := by
  obtain ⟨hamended, hreported⟩ := amended_runFunction hf hrun
  have hwell : (e.runFunction f id).2.store.WellFormed := wellFormed_perform hs (.function f id)
  obtain ⟨session, hsession, store, ledger, hsaved, hafter⟩ := exists_after_of_runFunction hrun
  rw [hafter] at hamended hwell ⊢
  have hselected := hamended.selectCurrent_eq
  generalize e.store.selectCurrent selection (.ofSession id) = facts at hamended hreported hselected
  -- A fact that was not restated is the same fact, and of any other nothing becomes.
  have hnext (fact : Fact) : (fate ((fate fact).apply fact)).values? = none ∧
      (fate ((fate fact).apply fact)).fault? = (fate fact).fault? := by
    cases hfate : fate fact with
    | restated values =>
      have hleft : fate (Fate.apply (.restated values) fact) = .left := hsettled fact values hfate
      rw [hleft]
      exact ⟨rfl, rfl⟩
    | left => exact ⟨congrArg Fate.values? hfate, congrArg Fate.fault? hfate⟩
    | reported fault => exact ⟨congrArg Fate.values? hfate, congrArg Fate.fault? hfate⟩
  have hf' : ∀ session run, f.Amends
      (Engine.workContext { e with store, ledger } id session run) selection fate := hf
  have hsession' := (sessionOfWork_withStore ledger hamended.sessions id).trans hsession
  have hnone :
      e.registry.restatements fate (store.selectCurrent selection (.ofSession id)) = [] := by
    rw [hselected, Registry.restatements, List.filterMap_map]
    refine List.filterMap_eq_nil_iff.mpr fun fact _ ↦ ?_
    rw [Function.comp_apply, (hnext fact).1, Option.map_none]
  obtain ⟨again, hagain⟩ := exists_outcome_of_amends (e := { e with store, ledger }) hwell hf'
    hsession' (by simp [Store.inUnit, hsaved]) (by simp [hnone])
  obtain ⟨hamended', hreported'⟩ := amended_runFunction (e := { e with store, ledger }) hf' hagain
  refine ⟨again, hagain, ?_, ?_, ?_, hamended'.unchanged fun fact hfact ↦ ?_⟩
  · rw [hreported'.affected, hnone]
    rfl
  · rw [← List.map_eq_nil_iff (f := RunEntry.toEntry), hreported'.entries, hnone]
  · rw [hreported'.errors, hreported.errors, hselected, Registry.reports, Registry.reports,
      List.filterMap_map]
    refine List.filterMap_congr fun fact _ ↦ ?_
    rw [Function.comp_apply, (hnext fact).2]
    rfl
  · rw [hselected] at hfact
    obtain ⟨before, -, rfl⟩ := List.mem_map.mp hfact
    exact (hnext before).1

end Engine

end PlanLedger
