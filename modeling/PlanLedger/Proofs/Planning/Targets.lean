import PlanLedger.Proofs.Formula.Expansion
import PlanLedger.Proofs.Planning.Cells
import PlanLedger.Proofs.Store.Agreement

/-!
# Targets of formulas

A cell is determined by its session and its values on all dimensions, so the ways to make a cell are
compared by the values that they give it. The target of a formula has, on each dimension, the value
that is asked for last, or else the one that the run has. For period and organisational unit the
program looks at the value that is asked for first, but only to see that there is one, as every
value is then put on the cell in turn.

Read as a reference, a target asks for the last values as well, so its filter admits the cell that
it assigns.
-/

namespace PlanLedger

open Formula (Bindings CellRef DimFilter)

/-! ## Cells and their values -/

theorem Cell.ext_get? {c c' : Cell} (hsession : c.session = c'.session)
    (h : ∀ d, c.get? d = c'.get? d) : c = c' := by
  have hextra : c.extra = c'.extra := SortedMap.ext_get? fun name ↦ h (.extra name)
  have hversion := h .version
  have hyear := h .year
  have hperiod := h .period
  have horgUnit := h .orgUnit
  have hservice := h .service
  have haccount := h .account
  have hkeyFigure := h .keyFigure
  cases c
  cases c'
  simp only [get?, Option.some_inj] at *
  subst_vars
  rfl

/-- The cell with values put on it one after the other. -/
def Cell.setAll (c : Cell) (pairs : List (Dimension × DimId)) : Cell :=
  pairs.foldl (fun c p ↦ c.set p.1 p.2) c

/-- A cell has the values that were put on it last, and its own ones beside them. -/
theorem Cell.get?_setAll (c : Cell) (pairs : List (Dimension × DimId)) (d : Dimension) :
    (c.setAll pairs).get? d = ((SortedMap.ofList pairs).get? d).or (c.get? d) := by
  -- Later values take the place of earlier ones, so the induction is from the end.
  induction pairs using List.reverseRecOn with
  | nil => rfl
  | append_singleton pairs p ih =>
    rw [setAll, List.foldl_append, SortedMap.ofList_append_singleton, SortedMap.get?_insert]
    show ((c.setAll pairs).set p.1 p.2).get? d = _
    rw [Cell.get?_set, ih]
    split_ifs <;> rfl

theorem Cell.session_setAll (c : Cell) (pairs : List (Dimension × DimId)) :
    (c.setAll pairs).session = c.session := by
  induction pairs generalizing c with
  | nil => rfl
  | cons p rest ih => exact (ih (c.set p.1 p.2)).trans (session_set c p.1 p.2)

/-! ## The cell of a target -/

/-- What the target of a formula has on a dimension that is not named. -/
def RunFrame.value? (x : RunFrame) (keyFigure : DimId) : Dimension → Option DimId
  | .version => some x.session.version
  | .year => some x.session.year
  | .period => x.period
  | .orgUnit => x.session.orgUnit
  | .keyFigure => some keyFigure
  | _ => none

/-- The dimensions that a part of a cell can be named on. -/
def Dimension.IsPart : Dimension → Prop
  | .version | .year | .keyFigure => False
  | _ => True

section

variable {x : RunFrame} {name : String} {keyFigure : DimId} {pairs : List (Dimension × DimId)}
  {c c' : Cell}

/-- Version and year are not put on a target but compared with those of the session, which comes to
the same. -/
theorem placeOnTarget_eq_ok (hversion : c.version = x.session.version)
    (hyear : c.year = x.session.year) {p : Dimension × DimId}
    (h : placeOnTarget x name c p = .ok c') : p.1 ≠ .keyFigure ∧ c' = c.set p.1 p.2 ∧
      c'.version = x.session.version ∧ c'.year = x.session.year := by
  obtain ⟨d, v⟩ := p
  cases d with
  | version =>
    simp only [placeOnTarget] at h
    split_ifs at h with hv
    cases h
    subst hv
    refine ⟨by simp, ?_, hversion, hyear⟩
    rw [Cell.set, ← hversion]
  | year =>
    simp only [placeOnTarget] at h
    split_ifs at h with hv
    cases h
    subst hv
    refine ⟨by simp, ?_, hversion, hyear⟩
    rw [Cell.set, ← hyear]
  | keyFigure => cases h
  | _ =>
    cases h
    exact ⟨by simp, rfl, hversion, hyear⟩

theorem placeAll_eq_ok (hversion : c.version = x.session.version) (hyear : c.year = x.session.year)
    (h : pairs.foldlM (placeOnTarget x name) c = .ok c') :
    (∀ p ∈ pairs, p.1 ≠ .keyFigure) ∧ c' = c.setAll pairs := by
  induction pairs generalizing c with
  | nil =>
    cases h
    exact ⟨nofun, rfl⟩
  | cons p rest ih =>
    rw [List.foldlM_cons] at h
    obtain ⟨c₁, hfirst, hrest⟩ := bind_eq_ok.mp h
    obtain ⟨hp, rfl, hversion', hyear'⟩ := placeOnTarget_eq_ok hversion hyear hfirst
    obtain ⟨hothers, rfl⟩ := ih hversion' hyear' hrest
    exact ⟨List.forall_mem_cons.mpr ⟨hp, hothers⟩, rfl⟩

theorem placeAll_of_isPart (hpairs : ∀ p ∈ pairs, p.1.IsPart) :
    pairs.foldlM (placeOnTarget x name) c = .ok (c.setAll pairs) := by
  induction pairs generalizing c with
  | nil => rfl
  | cons p rest ih =>
    obtain ⟨hp, hrest⟩ := List.forall_mem_cons.mp hpairs
    have hfirst : placeOnTarget x name c p = .ok (c.set p.1 p.2) := by
      obtain ⟨d, v⟩ := p
      cases d <;> first | rfl | exact hp.elim
    rw [List.foldlM_cons, hfirst, ok_bind, ih hrest]
    rfl

theorem isSome_find?_iff (pairs : List (Dimension × DimId)) (d : Dimension) :
    ((pairs.find? fun p ↦ p.1 == d).map (·.2)).isSome =
      ((SortedMap.ofList pairs).get? d).isSome := by
  rw [Option.isSome_map, Bool.eq_iff_iff, List.find?_isSome, ← SortedMap.contains,
    SortedMap.contains_iff, SortedMap.mem_keys_ofList, List.mem_map]
  simp only [beq_iff_eq]

/-- The value that is asked for first or else that of the run, where there is one, tells what a cell
has on which nothing is put. -/
private theorem eq_of_first {d : Dimension} {own : Option DimId} {v : DimId}
    (hlast : (SortedMap.ofList pairs).get? d = none)
    (h : ((pairs.find? fun p ↦ p.1 == d).map (·.2) <|> own) = some v) : some v = own := by
  have hfirst : (pairs.find? fun p ↦ p.1 == d).map (·.2) = none := by
    rw [← Option.not_isSome_iff_eq_none, isSome_find?_iff, hlast]
    exact Bool.false_ne_true
  rw [← h, hfirst]
  rfl

/-- **Targets.** A target has the session of the run, and on each dimension the value that is asked
for last or else that of the run. No value is asked for on the key figure. -/
theorem targetCell_eq_ok (h : targetCell x name keyFigure pairs = .ok c) :
    (∀ p ∈ pairs, p.1 ≠ .keyFigure) ∧ c.session = x.sessionId ∧
      ∀ d, c.get? d = ((SortedMap.ofList pairs).get? d).or (x.value? keyFigure d) := by
  simp only [targetCell] at h
  split at h
  · cases h
  · cases h
  · rename_i period orgUnit hperiod horgUnit
    obtain ⟨hpairs, rfl⟩ := placeAll_eq_ok rfl rfl h
    refine ⟨hpairs, Cell.session_setAll _ _, fun d ↦ ?_⟩
    rw [Cell.get?_setAll]
    cases hlast : (SortedMap.ofList pairs).get? d with
    | some v => rfl
    | none =>
      cases d with
      | period => exact eq_of_first hlast hperiod
      | orgUnit => exact eq_of_first hlast horgUnit
      | _ => rfl

/-- Values of parts make a target, if they or the run have a period and an organisational unit. -/
theorem exists_targetCell (hpairs : ∀ p ∈ pairs, p.1.IsPart)
    (hperiod : (((SortedMap.ofList pairs).get? .period).or x.period).isSome = true)
    (horgUnit : (((SortedMap.ofList pairs).get? .orgUnit).or x.session.orgUnit).isSome = true) :
    ∃ c, targetCell x name keyFigure pairs = .ok c := by
  have hfound (d : Dimension) (own : Option DimId)
      (h : (((SortedMap.ofList pairs).get? d).or own).isSome = true) :
      ∃ v, ((pairs.find? fun p ↦ p.1 == d).map (·.2) <|> own) = some v := by
    refine Option.isSome_iff_exists.mp ?_
    rw [Option.isSome_or, ← isSome_find?_iff] at h
    rwa [Option.orElse_eq_orElse, Option.orElse_eq_or, Option.isSome_or]
  obtain ⟨period, hperiod⟩ := hfound .period x.period hperiod
  obtain ⟨orgUnit, horgUnit⟩ := hfound .orgUnit x.session.orgUnit horgUnit
  simp only [targetCell, hperiod, horgUnit, placeAll_of_isPart hpairs]
  exact ⟨_, rfl⟩

theorem admits_targetCell (h : targetCell x name keyFigure pairs = .ok c) :
    Filter.admits (.ofList pairs) c = true ∧ c.keyFigure = keyFigure := by
  obtain ⟨hpairs, -, hget⟩ := targetCell_eq_ok h
  constructor
  · refine Filter.admits_iff.mpr fun d id hid ↦ ?_
    rw [hget, hid, Option.some_or]
  · have hnone : (SortedMap.ofList pairs).get? .keyFigure = none :=
      Option.eq_none_iff_forall_ne_some.mpr fun v hv ↦
        hpairs (.keyFigure, v) (SortedMap.mem_of_get?_ofList hv) rfl
    have hvalue := hget .keyFigure
    rw [hnone] at hvalue
    exact Option.some.inj hvalue

end

/-! ## References as targets -/

section

variable {r : Registry} {x : RunFrame} {b : Bindings} {ref ref' : CellRef} {c : Cell}

theorem exists_target_iff : (∃ name, target r x b ref = .ok (c, name)) ↔
    ∃ keyFigure pairs, ref.resolveKeyFigure r b = .ok keyFigure ∧
      Formula.resolvePairs r b ref.filters = .ok pairs ∧
      targetCell x (r.keyName keyFigure pairs) keyFigure pairs = .ok c := by
  simp only [target, bind_eq_ok]
  constructor
  · rintro ⟨name, keyFigure, hkeyFigure, pairs, hpairs, h⟩
    refine ⟨keyFigure, pairs, hkeyFigure, hpairs, ?_⟩
    split at h
    · cases h
      assumption
    · cases h
  · rintro ⟨keyFigure, pairs, hkeyFigure, hpairs, h⟩
    exact ⟨_, keyFigure, hkeyFigure, pairs, hpairs, by rw [h]; rfl⟩

/-- A formula assigns the same cell before and after the codes of its target were replaced. -/
theorem target_expand (h : ref.expand r = .ok ref') : target r x b ref' = target r x b ref := by
  obtain ⟨hkeyFigure, hpairs, -⟩ := CellRef.resolve_expand (b := b) h
  simp only [target, hkeyFigure, hpairs]

end

/-- The target of a compiled formula is that of its text with the codes replaced, and no
aggregate. -/
theorem Engine.Compiles.expand_target {e : Engine} {f : PlanFormula}
    {compiled : CompiledFormula} {st : Formula.Statement}
    (h : e.Compiles f compiled) (htext : Formula.Statement.ofText f.text = .ok st) :
    st.target.aggregate = none ∧ st.target.expand e.registry = .ok compiled.statement.target := by
  obtain ⟨st', htext', hexpand⟩ := h.read
  obtain rfl := Except.ok.inj (htext.symm.trans htext')
  rw [Formula.Statement.expand] at hexpand
  split at hexpand
  · cases hexpand
  · rename_i hnone
    obtain ⟨ref, href, hexpand⟩ := bind_eq_ok.mp hexpand
    obtain ⟨expr, -, hexpand⟩ := bind_eq_ok.mp hexpand
    injection hexpand with hexpand
    rw [← hexpand]
    exact ⟨hnone, href⟩

end PlanLedger
