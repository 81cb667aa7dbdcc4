import Mathlib.Data.Option.Basic
import PlanLedger.Planning.Copy
import PlanLedger.Proofs.Dimension.Registry
import PlanLedger.Proofs.Planning.Combinations
import PlanLedger.Proofs.Planning.Entries

/-!
# Registered cells

A cell is registered if it has registered values on its dimensions and the version and year of its
session. Cells are made from codes, as targets of formulas, and by copying; each of these ways leads
to registered cells, if sessions are registered.
-/

namespace PlanLedger

open Formula (Bindings CellRef DimFilter)

/-! ## Values of cells -/

/-- Whatever a cell has on a dimension is a registered value of it. -/
def Registry.Covers (r : Registry) (c : Cell) : Prop := ∀ d id, c.get? d = some id → r.Has d id

/-- A session of registered values. -/
structure Session.IsRegistered (r : Registry) (s : Session) : Prop where
  version : r.Has .version s.version
  year : r.Has .year s.year
  orgUnit : ∀ id, s.orgUnit = some id → r.Has .orgUnit id

/-- A cell of registered values, with the version and year of its session. -/
structure Cell.IsRegistered (r : Registry) (sessions : SortedMap SessionId Session) (c : Cell) :
    Prop where
  session : ∃ session, sessions.get? c.session = some session ∧ c.version = session.version ∧
    c.year = session.year
  covered : r.Covers c

section

variable {r : Registry} {c : Cell}

theorem Cell.get?_set (c : Cell) (d : Dimension) (v : DimId) (d' : Dimension) :
    (c.set d v).get? d' = if d' = d then some v else c.get? d' := by
  cases d with
  | extra name =>
    cases d' with
    | extra name' => simp [set, get?, SortedMap.get?_insert]
    | _ => rfl
  | _ => cases d' <;> rfl

theorem Registry.Covers.set (hc : r.Covers c) {d : Dimension} {v : DimId} (hv : r.Has d v) :
    r.Covers (c.set d v) := by
  intro d' id hget
  rw [Cell.get?_set] at hget
  split_ifs at hget with hd
  · cases hget
    rwa [hd]
  · exact hc d' id hget

theorem covers_copiedCell (hc : r.Covers c) (target : SessionId) {version year : DimId}
    (hversion : r.Has .version version) (hyear : r.Has .year year) :
    r.Covers (copiedCell target version year c) := by
  have hcopied : r.Covers ((c.set .version version).set .year year) :=
    (hc.set hversion).set hyear
  -- No dimension tells the session of a cell.
  intro d id hget
  refine hcopied d id ?_
  cases d <;> exact hget

end

/-! ## Cells from codes -/

namespace Engine

/-- Parts of a cell that are registered values. -/
structure CellParts.IsRegistered (r : Registry) (p : CellParts) : Prop where
  period : ∀ id, p.period = some id → r.Has .period id
  orgUnit : ∀ id, p.orgUnit = some id → r.Has .orgUnit id
  service : ∀ id, p.service = some id → r.Has .service id
  account : ∀ id, p.account = some id → r.Has .account id
  extra : ∀ name id, p.extra.get? name = some id → r.Has (.extra name) id

theorem CellParts.IsRegistered.set {r : Registry} {p p' : CellParts} (h : p.IsRegistered r)
    {d : Dimension} {id : DimId} (hid : r.Has d id) (hset : p.set d id = .ok p') :
    p'.IsRegistered r := by
  have hput : ∀ id', some id = some id' → r.Has d id' := by
    rintro id' ⟨⟩
    exact hid
  cases d with
  | period =>
    cases hset
    exact { h with period := hput }
  | orgUnit =>
    cases hset
    exact { h with orgUnit := hput }
  | service =>
    cases hset
    exact { h with service := hput }
  | account =>
    cases hset
    exact { h with account := hput }
  | extra name =>
    cases hset
    refine { h with extra := fun name' id' hget ↦ ?_ }
    rw [SortedMap.get?_insert] at hget
    split_ifs at hget with hname
    · rw [hname]
      exact hput id' hget
    · exact h.extra name' id' hget
  -- Version, year and key figure are not parts that can be named.
  | _ => cases hset

variable {e : Engine}

theorem has_of_resolve (hr : e.registry.Built) {d : Dimension} {text : String} {id : DimId}
    (h : e.resolve d text = .ok id) : e.registry.Has d id :=
  hr.has_of_resolve (PlanningError.ofRegistry_eq_ok.mp h)

theorem has_of_resolveOption (hr : e.registry.Built) {d : Dimension} {text : Option String}
    {found : Option DimId} (h : e.resolveOption d text = .ok found) :
    ∀ id, found = some id → e.registry.Has d id := by
  rintro id rfl
  cases text with
  | none => cases h
  | some text =>
    obtain ⟨id', hid', h⟩ := bind_eq_ok.mp h
    cases h
    exact has_of_resolve hr hid'

theorem isRegistered_setPart (hr : e.registry.Built) {p p' : CellParts} {named : String × String}
    (hp : p.IsRegistered e.registry) (h : e.setPart p named = .ok p') :
    p'.IsRegistered e.registry := by
  rw [setPart] at h
  obtain ⟨d, -, h⟩ := bind_eq_ok.mp h
  obtain ⟨id, hid, hset⟩ := bind_eq_ok.mp h
  exact hp.set (has_of_resolve hr hid) hset

/-- **Cells from codes.** A cell that is made from codes is registered, if its session is. -/
theorem isRegistered_cell (hr : e.registry.Built) {session : SessionId} {keyFigure : String}
    {dims : List (String × String)} {c : Cell}
    (hsession : ∀ s, e.store.session session = .ok s → s.IsRegistered e.registry)
    (h : e.cell session keyFigure dims = .ok c) :
    c.IsRegistered e.registry e.store.sessions := by
  rw [cell] at h
  obtain ⟨s, hs, h⟩ := bind_eq_ok.mp h
  obtain ⟨p, hp, h⟩ := bind_eq_ok.mp h
  have hs := PlanningError.ofStore_eq_ok.mp hs
  have hregistered := hsession s hs
  have hstart : CellParts.IsRegistered e.registry { orgUnit := s.orgUnit } := by
    refine ⟨fun id h ↦ ?_, hregistered.orgUnit, fun id h ↦ ?_, fun id h ↦ ?_, fun name id h ↦ ?_⟩
    all_goals cases h
  have hparts := of_foldlM_eq_ok hp hstart fun _ _ _ _ ↦ isRegistered_setPart hr
  split at h
  · cases h
  · cases h
  · rename_i period orgUnit hperiod horgUnit
    obtain ⟨keyFigureId, hkeyFigure, h⟩ := bind_eq_ok.mp h
    cases h
    refine ⟨⟨s, Store.session_eq_ok_iff.mp hs, rfl, rfl⟩, fun d id hget ↦ ?_⟩
    cases d with
    | period => exact hparts.period id (hperiod.trans hget)
    | orgUnit => exact hparts.orgUnit id (horgUnit.trans hget)
    | service => exact hparts.service id hget
    | account => exact hparts.account id hget
    | extra name => exact hparts.extra name id hget
    | version =>
      cases hget
      exact hregistered.version
    | year =>
      cases hget
      exact hregistered.year
    | keyFigure =>
      cases hget
      exact has_of_resolve hr hkeyFigure

end Engine

/-! ## Targets of formulas -/

section

variable {r : Registry} {x : RunFrame} {name : String}

/-- A value that is put on a target leaves version and year as they are, as these two are only
compared. -/
theorem covers_placeOnTarget {c c' : Cell} {p : Dimension × DimId} (hp : r.Has p.1 p.2)
    (hc : r.Covers c) (h : placeOnTarget x name c p = .ok c') :
    r.Covers c' ∧ c'.version = c.version ∧ c'.year = c.year := by
  have hset := hc.set hp
  obtain ⟨d, v⟩ := p
  cases d with
  | version =>
    rw [placeOnTarget] at h
    dsimp only at h
    split_ifs at h
    cases h
    exact ⟨hc, rfl, rfl⟩
  | year =>
    rw [placeOnTarget] at h
    dsimp only at h
    split_ifs at h
    cases h
    exact ⟨hc, rfl, rfl⟩
  | keyFigure => cases h
  | _ =>
    cases h
    exact ⟨hset, rfl, rfl⟩

theorem covers_placeAll {pairs : List (Dimension × DimId)} (hpairs : ∀ p ∈ pairs, r.Has p.1 p.2)
    {c c' : Cell} (hc : r.Covers c) (h : pairs.foldlM (placeOnTarget x name) c = .ok c') :
    r.Covers c' ∧ c'.version = c.version ∧ c'.year = c.year := by
  refine of_foldlM_eq_ok (P := fun c' ↦ r.Covers c' ∧ c'.version = c.version ∧ c'.year = c.year) h
    ⟨hc, rfl, rfl⟩ fun p hp placed next hplaced hnext ↦ ?_
  obtain ⟨hcovers, hversion, hyear⟩ := covers_placeOnTarget (hpairs p hp) hplaced.1 hnext
  exact ⟨hcovers, hversion.trans hplaced.2.1, hyear.trans hplaced.2.2⟩

theorem has_of_find? {pairs : List (Dimension × DimId)} (hpairs : ∀ p ∈ pairs, r.Has p.1 p.2)
    {d : Dimension} {id : DimId} (h : (pairs.find? fun p ↦ p.1 == d).map (·.2) = some id) :
    r.Has d id := by
  obtain ⟨p, hp, rfl⟩ := Option.map_eq_some_iff.mp h
  have hd : p.1 = d := by simpa using List.find?_some hp
  rw [← hd]
  exact hpairs p (List.mem_of_find?_eq_some hp)

/-- A run on a registered session, with a registered period if it has one. -/
structure RunFrame.IsRegistered (r : Registry) (sessions : SortedMap SessionId Session)
    (x : RunFrame) : Prop where
  stored : sessions.get? x.sessionId = some x.session
  session : x.session.IsRegistered r
  period : ∀ id, x.period = some id → r.Has .period id

variable {sessions : SortedMap SessionId Session}

theorem isRegistered_targetCell (hx : x.IsRegistered r sessions) {keyFigure : DimId}
    (hkeyFigure : r.Has .keyFigure keyFigure) {pairs : List (Dimension × DimId)}
    (hpairs : ∀ p ∈ pairs, r.Has p.1 p.2) {c : Cell}
    (h : targetCell x name keyFigure pairs = .ok c) : c.IsRegistered r sessions := by
  have hsession := session_targetCell h
  simp only [targetCell] at h
  split at h
  · cases h
  · cases h
  · rename_i period orgUnit hfoundPeriod hfoundUnit
    -- A period or an organisational unit is that of the filters or else that of the run.
    have hperiod : r.Has .period period := by
      rcases (Option.orElse_eq_some _ _ _).mp hfoundPeriod with hid | ⟨-, hid⟩
      · exact has_of_find? hpairs hid
      · exact hx.period period hid
    have horgUnit : r.Has .orgUnit orgUnit := by
      rcases (Option.orElse_eq_some _ _ _).mp hfoundUnit with hid | ⟨-, hid⟩
      · exact has_of_find? hpairs hid
      · exact hx.session.orgUnit orgUnit hid
    have hstart : r.Covers
        { session := x.sessionId, version := x.session.version, year := x.session.year,
          period, orgUnit, keyFigure } := by
      intro d id hget
      cases d <;> cases hget
      · exact horgUnit
      · exact hperiod
      · exact hx.session.year
      · exact hx.session.version
      · exact hkeyFigure
    obtain ⟨hcovers, hversion, hyear⟩ := covers_placeAll hpairs hstart h
    refine ⟨⟨x.session, ?_, hversion, hyear⟩, hcovers⟩
    rw [hsession]
    exact hx.stored

/-- **Targets of formulas.** A resolved target is registered for every choice of values. -/
theorem isRegistered_target (hr : r.Built) (hx : x.IsRegistered r sessions) {b : Bindings}
    (hb : r.Choice b) {ref : CellRef} (href : ref.IsResolved r) {c : Cell}
    (h : target r x b ref = .ok (c, name)) : c.IsRegistered r sessions := by
  rw [target] at h
  obtain ⟨keyFigure, hkeyFigure, h⟩ := bind_eq_ok.mp h
  obtain ⟨pairs, hpairs, h⟩ := bind_eq_ok.mp h
  have hnamed : r.Has .keyFigure keyFigure := by
    obtain ⟨id, text, hid, htext⟩ := href.keyFigure
    rw [CellRef.resolveKeyFigure, DimFilter.resolve, hid] at hkeyFigure
    cases hkeyFigure
    exact hr.has_of_resolve htext
  have hvalues : ∀ p ∈ pairs, r.Has p.1 p.2 := by
    intro p hp
    rcases Formula.mem_resolvePairs href.filters hpairs hp with hbound | ⟨text, htext⟩
    · obtain ⟨ids, hids, hid⟩ := hb p.1 p.2 hbound
      exact hr.has_of_mem_ids hids hid
    · exact hr.has_of_resolve htext
  dsimp only at h
  split at h
  · rename_i c' hcell
    cases h
    exact isRegistered_targetCell hx hnamed hvalues hcell
  · cases h

end

end PlanLedger
