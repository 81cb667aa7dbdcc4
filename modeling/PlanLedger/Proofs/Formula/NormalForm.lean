import PlanLedger.Proofs.Dimension.Registry
import PlanLedger.Proofs.Formula.Depth
import PlanLedger.Proofs.Formula.Prepared

/-!
# The normal form of an expression

An expression is in normal form if nothing in it has to be looked up in the catalog or in the
registry before it can run: no name of a sub-formula or a constant is left, filters and key figures
have numbers of registered values where texts have codes, look-ups are in sources that exist, and
calls are of known functions with as many arguments as these take.

What remains of an expression that was read is in normal form, part by part, wherever the part stood
and through however many texts it was reached. The registry has to be one that values were added to;
in it every code stands for the number of a value. An expression in normal form has nothing to
replace, so expansion leaves it as it is at every limit.
-/

namespace PlanLedger.Formula

/-! ## Normal forms -/

/-- An expression that some text stands for, on its own or as what a formula assigns. -/
def Expr.IsRead (e : Expr) : Prop :=
  (∃ text, Expr.ofText text = .ok e) ∨ ∃ text s, Statement.ofText text = .ok s ∧ s.expr = e

/-- A filter on a known dimension that asks for one of its values by number, or for the value of the
current combination. -/
structure DimFilter.IsNormal (r : Registry) (f : DimFilter) : Prop where
  dimension : f.dimension ∈ r.dimensions
  value : f.value = .loop ∨ ∃ id, f.value = .id id ∧ r.Has f.dimension id

/-- A value that is the number of a registered key figure. -/
def DimValue.IsKeyFigure (r : Registry) (v : DimValue) : Prop :=
  ∃ id, v = .id id ∧ r.Has .keyFigure id

/-- An expression in which nothing is left to look up in the catalog or the registry. -/
structure Expr.IsNormal (c : Catalog) (r : Registry) (e : Expr) : Prop where
  no_subFormula : ∀ name, .subFormula name ∉ e.nodes
  no_constant : ∀ name, .constant name ∉ e.nodes
  filters : ∀ f ∈ e.filters, f.IsNormal r
  keyFigures : ∀ ref, .cell ref ∈ e.nodes → ref.keyFigure.IsKeyFigure r
  sources : ∀ lookUp, .reference lookUp ∈ e.nodes → lookUp.name ∈ c.references.keys
  calls : ∀ name args, .call name args ∈ e.nodes → IsLawfulCall name args

section

variable {c : Catalog} {r : Registry}

/-! ## What is put in place -/

theorem DimFilter.mem_dimensions_of_expand {f f' : DimFilter} (h : f.expand r = .ok f') :
    f'.dimension ∈ r.dimensions := by
  rw [expand] at h
  obtain ⟨list, hlist, h⟩ := bind_eq_ok.mp h
  have hsame : f'.dimension = f.dimension := by
    split at h
    · obtain ⟨id, -, h⟩ := bind_eq_ok.mp h
      cases h
      rfl
    · cases h
      rfl
  exact Registry.mem_dimensions_iff.mpr ⟨list, hsame ▸ hlist⟩

theorem DimFilter.isNormal_of_expand (hr : r.Built) {f f' : DimFilter} (hf : f.value.IsWritten)
    (h : f.expand r = .ok f') : f'.IsNormal r where
  dimension := mem_dimensions_of_expand h
  value := by
    rcases isResolved_of_expand hf h with hloop | ⟨id, text, hid, htext⟩
    · exact .inl hloop
    · exact .inr ⟨id, hid, hr.has_of_resolve htext⟩

theorem isNormal_of_expandFilters (hr : r.Built) {filters filters' : List DimFilter}
    (hfilters : ∀ f ∈ filters, f.value.IsWritten)
    (h : filters.mapM (DimFilter.expand r) = .ok filters') : ∀ f ∈ filters', f.IsNormal r := by
  intro f' hf'
  obtain ⟨f, hf, hexpand⟩ := exists_mem_of_mapM_eq_ok h hf'
  exact DimFilter.isNormal_of_expand hr (hfilters f hf) hexpand

theorem CellRef.filters_of_expand {ref ref' : CellRef} (h : ref.expand r = .ok ref') :
    ref.filters.mapM (DimFilter.expand r) = .ok ref'.filters := by
  rw [expand] at h
  obtain ⟨keyFigure, -, h⟩ := bind_eq_ok.mp h
  obtain ⟨filters, hfilters, h⟩ := bind_eq_ok.mp h
  cases h
  exact ofRegistry_eq_ok.mp hfilters

theorem CellRef.isKeyFigure_of_expand (hr : r.Built) {ref ref' : CellRef} (href : ref.IsWritten)
    (h : ref.expand r = .ok ref') : ref'.keyFigure.IsKeyFigure r := by
  obtain ⟨id, text, hid, htext⟩ := (isResolved_of_expand href h).keyFigure
  exact ⟨id, hid, hr.has_of_resolve htext⟩

theorem Catalog.exists_reference_iff {name : String} :
    (∃ data, c.reference name = .ok data) ↔ name ∈ c.references.keys := by
  rw [SortedMap.mem_keys_iff, reference]
  cases c.references.get? name with
  | none => simp
  | some data => simp

/-- An expression of which every part remains from what was read is in normal form. -/
theorem Expr.isNormal_of_remains (hr : r.Built) {e : Expr} (h : ∀ n ∈ e.nodes, n.Remains c r) :
    e.IsNormal c r where
  no_subFormula name hmem := by cases h _ hmem
  no_constant name hmem := by cases h _ hmem
  filters f hf := by
    obtain ⟨n, hn, hf⟩ := List.mem_flatMap.mp hf
    obtain _ | ⟨hwritten, hexpand⟩ | _ | _ | _ | ⟨hwritten, -, hfilters⟩ := h n hn
    · exact absurd hf List.not_mem_nil
    · exact isNormal_of_expandFilters hr hwritten.filters (CellRef.filters_of_expand hexpand) f hf
    · exact absurd hf List.not_mem_nil
    · exact absurd hf List.not_mem_nil
    · exact absurd hf List.not_mem_nil
    · exact isNormal_of_expandFilters hr hwritten hfilters f hf
  keyFigures ref hmem := by
    cases h _ hmem with
    | cell hwritten hexpand => exact CellRef.isKeyFigure_of_expand hr hwritten hexpand
  sources lookUp hmem := by
    cases h _ hmem with
    | reference _ hdata _ => exact Catalog.exists_reference_iff.mp ⟨_, hdata⟩
  calls name args hmem := by
    cases h _ hmem with
    | call hlawful => exact hlawful

/-! ## What is left as it is -/

theorem DimFilter.IsNormal.expand_eq_self {f : DimFilter} (h : f.IsNormal r) :
    f.expand r = .ok f := by
  obtain ⟨list, hlist⟩ := Registry.mem_dimensions_iff.mp h.dimension
  rw [expand, hlist, ok_bind]
  rcases h.value with hloop | ⟨id, hid, -⟩
  · rw [hloop]
    rfl
  · rw [hid]
    rfl

theorem expandFilters_eq_self {filters : List DimFilter} (h : ∀ f ∈ filters, f.IsNormal r) :
    ofRegistry (filters.mapM (DimFilter.expand r)) = .ok filters := by
  refine ofRegistry_eq_ok.mpr (mapM_eq_ok.mpr (List.forall₂_same.mpr fun f hf ↦ ?_))
  exact (h f hf).expand_eq_self

theorem CellRef.expand_eq_self {ref : CellRef} (hkeyFigure : ref.keyFigure.IsKeyFigure r)
    (hfilters : ∀ f ∈ ref.filters, f.IsNormal r) : ref.expand r = .ok ref := by
  obtain ⟨id, hid, -⟩ := hkeyFigure
  have hkept : expandKeyFigure r ref.keyFigure = .ok ref.keyFigure := by
    rw [hid]
    rfl
  rw [expand, hkept, ok_bind, expandFilters_eq_self hfilters]
  rfl

/-- A leaf of an expression in normal form is left as it is, whatever names would be opened to. -/
theorem Expr.IsNormal.expandLeaf_eq_self {e leaf : Expr} (h : e.IsNormal c r)
    (hmem : leaf ∈ e.nodes) (openName : String → Except FormulaError Expr) :
    expandLeaf c r openName leaf = .ok leaf := by
  have hfilters {f : DimFilter} {n : Expr} (hn : n ∈ e.nodes) := fun hf ↦
    h.filters f (List.mem_flatMap.mpr ⟨n, hn, hf⟩)
  cases leaf with
  | cell ref =>
    have hkept : ref.expand r = .ok ref :=
      CellRef.expand_eq_self (h.keyFigures ref hmem) fun f hf ↦ hfilters hmem hf
    rw [expandLeaf, hkept]
    rfl
  | reference lookUp =>
    obtain ⟨data, hdata⟩ := Catalog.exists_reference_iff.mpr (h.sources lookUp hmem)
    have hkept : ofRegistry (lookUp.filters.mapM (DimFilter.expand r)) = .ok lookUp.filters :=
      expandFilters_eq_self fun f hf ↦ hfilters hmem hf
    rw [expandLeaf, hdata, ok_bind, hkept]
    rfl
  | subFormula name => exact absurd hmem (h.no_subFormula name)
  | constant name => exact absurd hmem (h.no_constant name)
  | _ => rfl

theorem Expr.IsNormal.expand_eq_self {e : Expr} (h : e.IsNormal c r) (limit : Nat) :
    e.expand c r limit = .ok e := by
  obtain ⟨openNew, hpass⟩ := exists_expandWithin_eq c r limit limit []
  rw [Expr.expand, hpass]
  exact e.bindLeaves_eq_self fun leaf hmem _ ↦ h.expandLeaf_eq_self hmem _

end

/-! ## What is read -/

theorem Expr.IsRead.isWritten {e : Expr} (h : e.IsRead) : e.IsWritten := by
  rcases h with ⟨text, htext⟩ | ⟨text, s, hs, rfl⟩
  · exact (Expr.ofText_eq_ok_iff.mp htext).isWritten
  · exact (isWritten_of_statement hs).2

/-- **Expansion comes to a normal form.** If an expression that was read can be expanded, the result
is in normal form, and expanding it again leaves it as it is, at whatever limit. -/
theorem expand_normal {c : Catalog} {r : Registry} (hr : r.Built) {e e' : Expr} (he : e.IsRead)
    (limit : Nat) (h : e.expand c r limit = .ok e') :
    e'.IsNormal c r ∧ ∀ limit', e'.expand c r limit' = .ok e' := by
  have hnormal : e'.IsNormal c r :=
    Expr.isNormal_of_remains hr (remains_of_expandWithin he.isWritten h)
  exact ⟨hnormal, hnormal.expand_eq_self⟩

/-- Values of the dimensions that a shop plans by, one of which is an extra one. -/
private def shopValues : List (Dimension × DimensionValue) :=
  [(.orgUnit, { id := 4, code := "WEST" }), (.extra "Channel", { id := 7, code := "WEB" }),
    (.keyFigure, { id := 1, code := "REV" }), (.keyFigure, { id := 2, code := "COST" })]

private def shopRegistry : Registry :=
  match shopValues.foldlM (fun r p ↦ Registry.add r p.1 p.2) .initial with
  | .ok r => r
  | .error _ => .initial

/-- The catalog of the shop, with a sub-formula that is reached through another one. -/
private def shopCatalog : Catalog :=
  ((({} : Catalog).withConstant "RATE" .one).withSubFormula "MARGIN"
      "[OrgUnit=$LOOP].[REV] - $COSTS")
    |>.withSubFormula "COSTS" "RATE * [OrgUnit=4].[COST]"
    |>.withReference { name := "Budget", keyFigure := "REV" }

private def shopWritten : Expr :=
  .call "MAX" [.subFormula "MARGIN", .reference ⟨"Budget", [⟨.extra "Channel", .code "WEB"⟩]⟩]

/-- The call with the texts of both sub-formulas in it, and with numbers in place of codes. -/
private def shopExpanded : Expr :=
  .call "MAX"
    [.binary (.arithmetic .subtract)
        (.cell { filters := [⟨.orgUnit, .loop⟩], keyFigure := .id 1 })
        (.binary (.arithmetic .multiply) (.number .one)
          (.cell { filters := [⟨.orgUnit, .id 4⟩], keyFigure := .id 2 })),
      .reference ⟨"Budget", [⟨.extra "Channel", .id 7⟩]⟩]

/-- What two sub-formulas stand for is in normal form, also where digits were written instead of a
code, and no name has to be followed to expand it again. -/
theorem expand_normal_shop :
    shopRegistry.Built ∧
      Expr.ofText "MAX($MARGIN, REF('Budget', Channel='WEB'))" = .ok shopWritten ∧
      shopWritten.expand shopCatalog shopRegistry 2 = .ok shopExpanded ∧
      shopExpanded.IsNormal shopCatalog shopRegistry ∧
      shopExpanded.expand shopCatalog shopRegistry 0 = .ok shopExpanded := by
  have hadded :
      shopValues.foldlM (fun r p ↦ Registry.add r p.1 p.2) .initial = .ok shopRegistry := by
    decide +kernel
  have hbuilt : shopRegistry.Built :=
    of_foldlM_eq_ok hadded .initial fun _ _ _ _ hr hadd ↦ hr.add hadd
  have hread : Expr.ofText "MAX($MARGIN, REF('Budget', Channel='WEB'))" = .ok shopWritten := by
    decide +kernel
  have hexpand : shopWritten.expand shopCatalog shopRegistry 2 = .ok shopExpanded := by
    decide +kernel
  obtain ⟨hnormal, hagain⟩ := expand_normal hbuilt (.inl ⟨_, hread⟩) 2 hexpand
  exact ⟨hbuilt, hread, hexpand, hnormal, hagain 0⟩

end PlanLedger.Formula
