import PlanLedger.Proofs.Formula.CatalogCheck
import PlanLedger.Proofs.Planning.Reachable
import PlanLedger.Proofs.Store.Loaded
import PlanLedger.Workbook.Basic

/-!
# Loading workbooks

A workbook that loads has been gone through from front to back. Each session took the next number
and a name that was new, and each fact went to the cell that it names. Neither sessions nor facts
change what names and codes stand for, so in the end every name stands for what it stood for when
it was read: a name of a session for the session at its place, and the codes of a fact for the cell
that it was stored in. A cell that several facts name has the values of the last of them.
-/

namespace PlanLedger

/-! ## Sessions -/

/-- A session is the one that a workbook describes. -/
structure SessionSpec.Describes (spec : SessionSpec) (e : Engine) (session : Session) : Prop where
  name : session.name = spec.name
  version : e.resolve .version spec.version = .ok session.version
  year : e.resolve .year spec.year = .ok session.year
  orgUnit : e.resolveOption .orgUnit spec.orgUnit = .ok session.orgUnit

theorem SessionSpec.Describes.withStore {spec : SessionSpec} {e : Engine} {session : Session}
    (h : spec.Describes e session) (store : Store) : spec.Describes { e with store } session :=
  ⟨h.name, h.version, h.year, h.orgUnit⟩

namespace Engine

variable {e e' : Engine}

theorem created_of_createSession {name version year : String} {orgUnit : Option String}
    {id : SessionId} {session : Session}
    (h : e.createSession name version year orgUnit = .ok ((id, session), e')) :
    id = e.store.lastSession + 1 ∧ session.name = name := by
  rw [createSession] at h
  obtain ⟨versionId, -, h⟩ := bind_eq_ok.mp h
  obtain ⟨yearId, -, h⟩ := bind_eq_ok.mp h
  obtain ⟨unitId, -, h⟩ := bind_eq_ok.mp h
  cases h
  exact ⟨rfl, rfl⟩

end Engine

namespace Loaded

/-- The sessions of a workbook are loaded: they have the numbers from one on in the order of the
file, and each is the one that is found by its name, which no other one has. -/
structure Numbers (l : Loaded) (specs : List SessionSpec) : Prop where
  names_nodup : (specs.map (·.name)).Nodup
  keys : l.engine.store.sessions.keys = List.range' 1 specs.length
  last : l.engine.store.lastSession = specs.length
  found : ∀ i spec, specs[i]? = some spec → l.sessions.get? spec.name = some (i + 1) ∧
    ∃ session, l.engine.store.session (i + 1) = .ok session ∧ spec.Describes l.engine session

/-- What is loaded with one more session, under the next number and a name. -/
def withSession (l : Loaded) (name : String) (session : Session) : Loaded :=
  let id := l.engine.store.lastSession + 1
  { l with
    engine := { l.engine with store := l.engine.store.withSession id session }
    sessions := l.sessions.insert name id }

namespace Numbers

variable {l : Loaded} {specs : List SessionSpec} {spec : SessionSpec} {session : Session}
  (h : l.Numbers specs)

include h

theorem mem_keys (hspec : spec ∈ specs) : spec.name ∈ l.sessions.keys := by
  obtain ⟨i, hi⟩ := List.mem_iff_getElem?.mp hspec
  exact SortedMap.mem_keys_iff.mpr ⟨_, (h.found i spec hi).1⟩

/-- The next number is above all others, so the new session comes after all others. -/
theorem keys_withSession (name : String) (session : Session) :
    (l.withSession name session).engine.store.sessions.keys = List.range' 1 (specs.length + 1) := by
  have habove : ∀ id ∈ l.engine.store.sessions.keys,
      compare id (l.engine.store.lastSession + 1) = .lt := by
    intro id hid
    rw [h.keys, List.mem_range'_1] at hid
    rw [h.last]
    exact Nat.compare_eq_lt.mpr (by omega)
  show (l.engine.store.sessions.insert (l.engine.store.lastSession + 1) session).keys = _
  rw [SortedMap.keys, SortedMap.toList_insert_of_forall_lt habove, List.map_append,
    ← SortedMap.keys, h.keys, List.map_singleton, h.last, List.range'_1_concat, Nat.add_comm 1]

theorem found_withSession (hnew : spec.name ∉ l.sessions.keys) {i : Nat} {spec' : SessionSpec}
    (hspec' : specs[i]? = some spec') :
    (l.withSession spec.name session).sessions.get? spec'.name = some (i + 1) ∧
      ∃ stored, (l.withSession spec.name session).engine.store.session (i + 1) = .ok stored ∧
        spec'.Describes (l.withSession spec.name session).engine stored := by
  obtain ⟨hname, stored, hstored, hdescribes⟩ := h.found i spec' hspec'
  have hother : spec'.name ≠ spec.name := by
    intro heq
    exact hnew (heq ▸ h.mem_keys (List.mem_of_getElem? hspec'))
  have hnumber : i + 1 ≠ l.engine.store.lastSession + 1 := by
    rw [h.last, Nat.add_right_cancel_iff.ne]
    exact Nat.ne_of_lt (List.getElem?_eq_some_iff.mp hspec').1
  refine ⟨(SortedMap.get?_insert_of_ne _ _ hother).trans hname, stored, ?_,
    hdescribes.withStore _⟩
  exact Store.session_eq_ok_iff.mpr
    ((SortedMap.get?_insert_of_ne _ _ hnumber).trans (Store.session_eq_ok_iff.mp hstored))

/-- **One more session.** A session with a new name takes the next number. -/
theorem add (hnew : spec.name ∉ l.sessions.keys) (hsession : spec.Describes l.engine session) :
    (l.withSession spec.name session).Numbers (specs ++ [spec]) := by
  have hlength : (specs ++ [spec]).length = specs.length + 1 := by simp
  refine ⟨?_, hlength ▸ h.keys_withSession spec.name session, ?_, ?_⟩
  · rw [List.map_append, List.map_singleton, ← List.concat_eq_append, List.nodup_concat]
    refine ⟨fun hmem ↦ ?_, h.names_nodup⟩
    obtain ⟨spec', hspec', hname⟩ := List.mem_map.mp hmem
    exact hnew (hname ▸ h.mem_keys hspec')
  · rw [hlength, ← h.last]
    exact Nat.max_eq_right (Nat.le_succ _)
  · intro i spec' hspec'
    rcases lt_or_ge i specs.length with hi | hi
    · rw [List.getElem?_append_left hi] at hspec'
      exact h.found_withSession hnew hspec'
    · rw [List.getElem?_append_right hi, List.getElem?_singleton] at hspec'
      split_ifs at hspec' with hlast
      cases hspec'
      have hnumber : i = l.engine.store.lastSession := by
        rw [h.last, Nat.le_antisymm (Nat.sub_eq_zero_iff_le.mp hlast) hi]
      rw [hnumber]
      exact ⟨SortedMap.get?_insert_self _ _ _, session,
        Store.session_eq_ok_iff.mpr (SortedMap.get?_insert_self _ _ _), hsession.withStore _⟩

end Numbers

end Loaded

namespace Workbook

variable {l l' : Loaded}

theorem addSession_eq_ok {spec : SessionSpec} (h : addSession l spec = .ok l') :
    spec.name ∉ l.sessions.keys ∧ ∃ session, spec.Describes l.engine session ∧
      l' = l.withSession spec.name session := by
  rw [addSession] at h
  split_ifs at h with hknown
  split at h
  · rename_i id session engine hcreate
    obtain ⟨hversion, hyear, hunit, rfl⟩ := Engine.createSession_eq_ok hcreate
    obtain ⟨rfl, hname⟩ := Engine.created_of_createSession hcreate
    cases h
    exact ⟨fun hmem ↦ hknown (SortedMap.contains_iff.mpr hmem), session,
      ⟨hname, hversion, hyear, hunit⟩, rfl⟩
  · cases h

theorem numbers_of_addSessions {specs : List SessionSpec}
    (h : specs.foldlM addSession l = .ok l') (hstart : l.Numbers []) : l'.Numbers specs := by
  induction specs using List.reverseRecOn generalizing l' with
  | nil =>
    cases h
    exact hstart
  | append_singleton specs spec ih =>
    rw [List.foldlM_append] at h
    obtain ⟨l₁, hbefore, h⟩ := bind_eq_ok.mp h
    rw [List.foldlM_cons] at h
    obtain ⟨l₂, hadd, h⟩ := bind_eq_ok.mp h
    cases h
    obtain ⟨hnew, session, hsession, rfl⟩ := addSession_eq_ok hadd
    exact (ih hbefore).add hnew hsession

theorem holds_of_addSessions {specs : List SessionSpec} {loaded : SortedMap Cell FactValues}
    (h : specs.foldlM addSession l = .ok l') (hstart : l.engine.store.Holds loaded) :
    l'.engine.store.Holds loaded ∧ l'.engine.catalog = l.engine.catalog := by
  refine of_foldlM_eq_ok (P := fun l' : Loaded ↦ l'.engine.store.Holds loaded ∧
    l'.engine.catalog = l.engine.catalog) h ⟨hstart, rfl⟩ fun spec _ l₁ l₂ hl₁ hadd ↦ ?_
  obtain ⟨-, session, -, rfl⟩ := addSession_eq_ok hadd
  exact ⟨hl₁.1.withSession _ session, hl₁.2⟩

end Workbook

/-! ## Facts -/

namespace Engine

theorem cell_withStore {e : Engine} {store : Store} (h : store.sessions = e.store.sessions) :
    { e with store }.cell = e.cell := by
  funext session keyFigure dims
  have hsession : store.session session = e.store.session session := by
    rw [Store.session, Store.session, h]
  rw [cell, cell]
  dsimp only
  rw [hsession]
  rfl

theorem session_of_cell {e : Engine} {session : SessionId} {keyFigure : String}
    {dims : List (String × String)} {c : Cell} (h : e.cell session keyFigure dims = .ok c) :
    c.session = session := by
  rw [cell] at h
  obtain ⟨s, -, h⟩ := bind_eq_ok.mp h
  obtain ⟨p, -, h⟩ := bind_eq_ok.mp h
  split at h
  · cases h
  · cases h
  · obtain ⟨id, -, h⟩ := bind_eq_ok.mp h
    cases h
    rfl

end Engine

namespace Loaded

/-- A fact of a workbook names a cell: its session does, with its key figure and its codes. -/
def Locates (l : Loaded) (spec : FactSpec) (c : Cell) : Prop :=
  ∃ session, l.session spec.session = .ok session ∧
    l.engine.cell session spec.keyFigure spec.dimensions.toList = .ok c

theorem locates_withStore {l : Loaded} {store : Store}
    (h : store.sessions = l.engine.store.sessions) {spec : FactSpec} {c : Cell} :
    Locates { l with engine := { l.engine with store } } spec c ↔ l.Locates spec c := by
  rw [Locates, Locates]
  dsimp only
  rw [Engine.cell_withStore h]
  rfl

theorem Locates.unique {l : Loaded} {spec : FactSpec} {c c' : Cell} (h : l.Locates spec c)
    (h' : l.Locates spec c') : c = c' := by
  obtain ⟨session, hsession, hcell⟩ := h
  obtain ⟨session', hsession', hcell'⟩ := h'
  cases hsession.symm.trans hsession'
  exact Except.ok.inj (hcell.symm.trans hcell')

end Loaded

namespace Workbook

variable {l l' : Loaded}

theorem addFact_eq_ok {spec : FactSpec} {index : Nat} (h : addFact l (spec, index) = .ok l') :
    ∃ c found s, l.Locates spec c ∧ l.engine.store.ensureBatch c.session = .ok (found, s) ∧
      s.checkKey (c.inBatch found.1) = .ok () ∧
      l' = { l with engine := { l.engine with
        store := s.written (c.inBatch found.1) spec.values fun _ ↦ spec.values } } := by
  rw [addFact] at h
  split at h
  · cases h
  · rename_i session hsession
    split at h
    · cases h
    · rename_i c hcell
      split at h
      · cases h
      · rename_i id engine hload
        cases h
        obtain ⟨found, s, hensure, hcheck, rfl⟩ := Engine.loadFact_eq_ok hload
        have hfound : l.session spec.session = .ok session := by rw [Loaded.session, hsession]
        exact ⟨c, found, s, ⟨session, hfound, hcell⟩, hensure, hcheck, rfl⟩

/-- Facts that are added change the store only and keep its sessions. The store then holds the
values of the cells that they name, where a later fact takes the place of an earlier one. -/
theorem exists_rows_of_addFacts {specs : List FactSpec}
    (h : specs.zipIdx.foldlM addFact l = .ok l') (hstart : l.engine.store.Holds ∅) :
    ∃ rows : List (FactSpec × Cell), rows.map Prod.fst = specs ∧
      (∀ row ∈ rows, l.Locates row.1 row.2) ∧
      ∃ store, l' = { l with engine := { l.engine with store } } ∧
        store.sessions = l.engine.store.sessions ∧
        store.Holds (.ofList (rows.map fun row ↦ (row.2, row.1.values))) := by
  induction specs using List.reverseRecOn generalizing l' with
  | nil =>
    cases h
    exact ⟨[], rfl, nofun, l.engine.store, rfl, rfl, hstart⟩
  | append_singleton specs spec ih =>
    rw [List.zipIdx_append, List.foldlM_append] at h
    obtain ⟨l₁, hbefore, h⟩ := bind_eq_ok.mp h
    obtain ⟨rows, hrows, hlocates, store, rfl, hsessions, hholds⟩ := ih hbefore
    rw [List.zipIdx_singleton, List.foldlM_cons] at h
    obtain ⟨l₂, hadd, h⟩ := bind_eq_ok.mp h
    cases h
    obtain ⟨c, found, s, hlocated, hensure, hcheck, rfl⟩ := addFact_eq_ok hadd
    refine ⟨rows ++ [(spec, c)], by rw [List.map_append, hrows]; rfl, ?_, _, rfl,
      (Store.sessions_ensureBatch hensure).trans hsessions, ?_⟩
    · intro row hrow
      rcases List.mem_append.mp hrow with hrow | hrow
      · exact hlocates row hrow
      · rw [List.mem_singleton.mp hrow]
        exact (Loaded.locates_withStore hsessions).mp hlocated
    · rw [List.map_append, List.map_singleton, SortedMap.ofList_append_singleton]
      exact hholds.load hensure hcheck

end Workbook

/-! ## What is loaded -/

namespace Loaded

/-- Facts of a workbook with the cells that they name. -/
structure Rows (l : Loaded) (specs : List FactSpec) (rows : List (FactSpec × Cell)) : Prop where
  specs_eq : rows.map Prod.fst = specs
  locates : ∀ row ∈ rows, l.Locates row.1 row.2

/-- The values of the cells that facts name, where a later fact takes the place of an earlier
one. -/
def rowValues (rows : List (FactSpec × Cell)) : SortedMap Cell FactValues :=
  .ofList (rows.map fun row ↦ (row.2, row.1.values))

namespace Rows

variable {l : Loaded} {specs : List FactSpec} {rows : List (FactSpec × Cell)} {c : Cell}
  (h : l.Rows specs rows)

include h

theorem exists_locates {spec : FactSpec} (hspec : spec ∈ specs) :
    ∃ c, (spec, c) ∈ rows ∧ l.Locates spec c := by
  rw [← h.specs_eq] at hspec
  obtain ⟨⟨spec, c⟩, hrow, rfl⟩ := List.mem_map.mp hspec
  exact ⟨c, hrow, h.locates _ hrow⟩

theorem mem_keys_iff : c ∈ (rowValues rows).keys ↔ ∃ spec ∈ specs, l.Locates spec c := by
  rw [rowValues, SortedMap.mem_keys_ofList, List.map_map, List.mem_map]
  constructor
  · rintro ⟨row, hrow, rfl⟩
    exact ⟨row.1, h.specs_eq ▸ List.mem_map_of_mem hrow, h.locates row hrow⟩
  · rintro ⟨spec, hspec, hc⟩
    obtain ⟨c', hrow, hc'⟩ := h.exists_locates hspec
    exact ⟨_, hrow, hc'.unique hc⟩

theorem get?_rowValues {front back : List FactSpec} {spec : FactSpec}
    (hsplit : specs = front ++ spec :: back) (hc : l.Locates spec c)
    (hlast : ∀ later ∈ back, ¬l.Locates later c) :
    (rowValues rows).get? c = some spec.values := by
  have heq := h.specs_eq.trans hsplit
  obtain ⟨before, rest, rfl, -, hrest⟩ := List.map_eq_append_iff.mp heq
  obtain ⟨row, after, rfl, rfl, rfl⟩ := List.map_eq_cons_iff.mp hrest
  obtain rfl : row.2 = c := (h.locates row (by simp)).unique hc
  rw [rowValues, List.map_append, List.map_cons]
  refine SortedMap.get?_ofList_append_cons fun e he heq ↦ ?_
  obtain ⟨later, hlater, rfl⟩ := List.mem_map.mp he
  exact hlast later.1 (List.mem_map_of_mem hlater) (heq ▸ h.locates later (by simp [hlater]))

theorem exists_session_iff {session : SessionId} :
    (∃ c ∈ (rowValues rows).keys, c.session = session) ↔
      ∃ spec ∈ specs, l.session spec.session = .ok session := by
  constructor
  · rintro ⟨c, hc, rfl⟩
    obtain ⟨spec, hspec, session, hsession, hcell⟩ := h.mem_keys_iff.mp hc
    exact ⟨spec, hspec, Engine.session_of_cell hcell ▸ hsession⟩
  · rintro ⟨spec, hspec, hsession⟩
    obtain ⟨c, -, hc⟩ := h.exists_locates hspec
    refine ⟨c, h.mem_keys_iff.mpr ⟨spec, hspec, hc⟩, ?_⟩
    obtain ⟨session', hsession', hcell⟩ := hc
    rw [Engine.session_of_cell hcell]
    exact Except.ok.inj (hsession'.symm.trans hsession)

end Rows

end Loaded

namespace Workbook

variable {w : Workbook} {l : Loaded}

/-- What a workbook comes to when it is loaded. -/
structure LoadsAs (w : Workbook) (l : Loaded) : Prop where
  names_nodup : (w.sessions.map (·.name)).Nodup
  session_ids : l.engine.store.sessions.keys = List.range' 1 w.sessions.length
  /-- The sessions are numbered in the order of the file, and a name selects the one it is of. -/
  session_named : ∀ i spec, w.sessions[i]? = some spec → l.session spec.name = .ok (i + 1) ∧
    ∃ session, l.engine.store.session (i + 1) = .ok session ∧ spec.Describes l.engine session
  located : ∀ spec ∈ w.facts, ∃ c, l.Locates spec c
  /-- The current values of a cell are those of the last fact that names it. -/
  last_values : ∀ front spec back c, w.facts = front ++ spec :: back → l.Locates spec c →
    (∀ later ∈ back, ¬l.Locates later c) →
      (l.engine.store.currentFact? c).map Fact.values = some spec.values
  /-- There is one fact for each cell that is named, and there are no others. -/
  cells_nodup : (l.engine.store.allFacts.map Fact.cell).Nodup
  mem_cells_iff : ∀ c, c ∈ l.engine.store.allFacts.map Fact.cell ↔
    ∃ spec ∈ w.facts, l.Locates spec c
  one_batch : ∀ spec ∈ w.facts, ∀ session, l.session spec.session = .ok session →
    ∃ found, l.engine.store.batchesOf session = [found]
  no_batch : ∀ session, (∀ spec ∈ w.facts, l.session spec.session ≠ .ok session) →
    l.engine.store.batchesOf session = []
  catalog : l.engine.catalog = w.catalog
  /-- What names sub-formulas of the catalog only never fails to expand at a cycle or at a name
  that is missing. -/
  expands : ∀ (expr : Formula.Expr) (r : Registry) (limit : Nat) (err : Formula.FormulaError),
    (∀ name, .subFormula name ∈ expr.nodes → name ∈ l.engine.catalog.subFormulas.keys) →
      expr.expand l.engine.catalog r limit = .error err →
        (∀ chain, err ≠ .cyclicExpansion chain) ∧ ∀ name, err ≠ .unknownSubFormula name

theorem start_eq_ok_iff : w.start = .ok l ↔ ∃ registry, w.registry = .ok registry ∧
    w.options.validate = .ok () ∧ w.catalog.check = .ok () ∧
      { engine := { registry, catalog := w.catalog, options := w.options },
        formulas := w.formulas } = l := by
  constructor
  · intro h
    rw [start] at h
    obtain ⟨registry, hregistry, h⟩ := bind_eq_ok.mp h
    split at h
    · cases h
    · rename_i hoptions
      dsimp only at h
      split at h
      · cases h
      · rename_i hcheck
        exact ⟨registry, hregistry, hoptions, PlanningError.ofFormula_eq_ok.mp hcheck,
          Except.ok.inj h⟩
  · rintro ⟨registry, hregistry, hoptions, hcheck, rfl⟩
    rw [start, hregistry, ok_bind, hoptions]
    dsimp only
    rw [Engine.checkCatalog, PlanningError.ofFormula_eq_ok.mpr hcheck]
    rfl

/-- **Loading is faithful.** A workbook that loads has its sessions numbered from one on in the
order of the file, under names of which each selects its own. Every fact names a cell of the engine.
The store has one fact for each of these cells and no other, its values are those of the last fact
of the file that names the cell, and a session has one batch if it has facts and none otherwise. An
expression over the sub-formulas of the catalog never fails to expand at a cycle or at a name that
is missing. -/
theorem load_faithful (h : w.load = .ok l) : w.LoadsAs l := by
  rw [load] at h
  obtain ⟨l₀, hstart, h⟩ := bind_eq_ok.mp h
  obtain ⟨l₁, hsessions, hfacts⟩ := bind_eq_ok.mp h
  obtain ⟨registry, -, -, hcheck, rfl⟩ := start_eq_ok_iff.mp hstart
  have hnumbers : l₁.Numbers w.sessions :=
    numbers_of_addSessions hsessions ⟨List.nodup_nil, rfl, rfl, nofun⟩
  obtain ⟨hempty, hcatalog⟩ := holds_of_addSessions hsessions .empty
  obtain ⟨rows, hrows, hlocates, store, rfl, hsame, hholds⟩ :=
    exists_rows_of_addFacts hfacts hempty
  have hrows : Loaded.Rows { l₁ with engine := { l₁.engine with store } } w.facts rows :=
    ⟨hrows, fun row hrow ↦ (Loaded.locates_withStore hsame).mpr (hlocates row hrow)⟩
  have hholds : store.Holds (Loaded.rowValues rows) := hholds
  refine ⟨hnumbers.names_nodup, ?_, fun i spec hspec ↦ ?_, fun spec hspec ↦ ?_,
    fun front spec back c hsplit hc hlast ↦ ?_, hholds.nodup_cells, fun c ↦ ?_,
    fun spec hspec session hsession ↦ ?_, fun session hnone ↦ ?_, hcatalog,
    fun expr r limit err hnames herr ↦ ?_⟩
  · exact hsame ▸ hnumbers.keys
  · obtain ⟨hfound, session, hsession, hdescribes⟩ := hnumbers.found i spec hspec
    refine ⟨by rw [Loaded.session, hfound], session, ?_, hdescribes.withStore _⟩
    rw [Store.session_eq_ok_iff] at hsession ⊢
    exact hsame ▸ hsession
  · obtain ⟨c, -, hc⟩ := hrows.exists_locates hspec
    exact ⟨c, hc⟩
  · exact (hholds.map_values_currentFact? c).trans (hrows.get?_rowValues hsplit hc hlast)
  · rw [← hrows.mem_keys_iff, hholds.mem_keys_iff, List.mem_map]
  · obtain ⟨c, hc, rfl⟩ := hrows.exists_session_iff.mpr ⟨spec, hspec, hsession⟩
    exact hholds.one_batch c hc
  · refine hholds.no_batch session fun c hc heq ↦ ?_
    obtain ⟨spec, hspec, hsession⟩ := hrows.exists_session_iff.mp ⟨c, hc, heq⟩
    exact hnone spec hspec hsession
  · exact Formula.Catalog.error_of_check (hcatalog ▸ hcheck) hnames herr

/-- A workbook of two sessions, the second one of which has the number of the first one as its
name. Its three facts name one cell: with the organisational unit of the session, with a code, and
with two names for the dimension, of which the later one counts. -/
private def aliased : Workbook where
  dimensions := .ofList
    [("Version", [{ id := 1, code := "P0" }]), ("Year", [{ id := 1, code := "2024" }]),
      ("Period", [{ id := 1, code := "01" }]), ("KeyFigure", [{ id := 1, code := "REV" }]),
      ("OrgUnit", [{ id := 1, code := "O1" }, { id := 2, code := "O2" }])]
  sessions :=
    [{ name := "main", version := "P0", year := "2024", orgUnit := some "O1" },
      { name := "1", version := "P0", year := "2024" }]
  facts :=
    [{ session := "main", keyFigure := "REV", dimensions := .ofList [("Period", "01")],
       values := { value := Engine.ten } },
      { session := "main", keyFigure := "REV",
        dimensions := .ofList [("OrgUnit", "O1"), ("Period", "01")],
        values := { value := Engine.ten, unit := some "EUR" } },
      { session := "main", keyFigure := "REV",
        dimensions := .ofList [("OrgUnit", "O2"), ("Period", "01"), ("org_unit", "O1")],
        values := { value := Engine.twenty } }]
  catalog := ({} : Formula.Catalog).withSubFormula "BASE" "2"

private def aliasedRegistry : Registry :=
  match aliased.registry with
  | .ok registry => registry
  | .error _ => .initial

private theorem check_aliased : aliased.catalog.check = .ok () := by
  have hbody : aliased.catalog.body "BASE" = .ok (.number ⟨false, 2, 0, by decide, by decide⟩) := by
    decide +kernel
  have hkeys : aliased.catalog.subFormulas.keys = ["BASE"] := by decide +kernel
  refine Formula.Catalog.check_eq_ok_iff.mpr ?_
  rw [hkeys, List.forall_mem_singleton]
  exact .intro hbody fun used hused ↦ by simp [Formula.Expr.nodes] at hused

/-- The name selects the second session, and the only fact has the values of the last one in the
file. -/
theorem load_faithful_aliased : ∃ l, aliased.load = .ok l ∧ aliased.LoadsAs l ∧
    l.session "1" = .ok 2 ∧ l.engine.store.allFacts =
      [⟨1, (Engine.smallCell 1).inBatch 1, { value := Engine.twenty }⟩] := by
  have hregistry : aliased.registry = .ok aliasedRegistry := by decide +kernel
  have hstart := start_eq_ok_iff.mpr ⟨_, hregistry, by decide +kernel, check_aliased, rfl⟩
  have hloaded : aliased.load.map (fun l ↦ (l.session "1", l.engine.store.allFacts)) =
      .ok (.ok 2, [⟨1, (Engine.smallCell 1).inBatch 1, { value := Engine.twenty }⟩]) := by
    rw [load, hstart, ok_bind]
    decide +kernel
  obtain ⟨l, hload, hresult⟩ := map_eq_ok.mp hloaded
  obtain ⟨hnamed, hfacts⟩ := Prod.mk.inj hresult
  exact ⟨l, hload, load_faithful hload, hnamed, hfacts⟩

end Workbook

end PlanLedger
