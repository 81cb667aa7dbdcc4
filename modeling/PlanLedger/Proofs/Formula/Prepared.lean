import PlanLedger.Proofs.Formula.Completeness
import PlanLedger.Proofs.Formula.Expansion

/-!
# What reading and expansion leave

Everything in an expression that was read is of a form that a text can name: values are codes or
ask for the current combination, and calls are of known functions with as many arguments as these
take. What remains of it in an expression that was expanded is said part by part, also of the texts
that were read on the way (`Expr.Remains`). From this it follows that there are no names of
sub-formulas and constants any more, that every code has become the number that it stands for in the
registry, and that every source of reference data exists.
-/

namespace PlanLedger.Formula

/-! ## What is read -/

def DimValue.IsWritten (v : DimValue) : Prop := ∀ id, v ≠ .id id

/-- A reference that a text can name. -/
structure CellRef.IsWritten (ref : CellRef) : Prop where
  keyFigure : ∃ text, ref.keyFigure = .code text
  filters : ∀ f ∈ ref.filters, f.value.IsWritten

/-- A call of a known function with a number of arguments that it takes. -/
def IsLawfulCall (name : String) (args : List Expr) : Prop :=
  ∃ f, Function.ofName? name = some f ∧ f.arity.admits args.length = true

namespace Expr

/-- An expression of which the outermost part is of a form that can be read. -/
def IsWrittenNode : Expr → Prop
  | cell ref => ref.IsWritten
  | reference lookUp => ∀ f ∈ lookUp.filters, f.value.IsWritten
  | call name args => IsLawfulCall name args
  | _ => True

/-- An expression of which every part is of a form that can be read. -/
def IsWritten (e : Expr) : Prop := ∀ n ∈ e.nodes, n.IsWrittenNode

end Expr

theorem isWritten_of_derivesFilter {tokens : List Token} {f : DimFilter}
    (h : DerivesFilter tokens f) : f.value.IsWritten := by
  obtain ⟨hvalue⟩ := h
  intro id hid
  subst hid
  cases hvalue

theorem isWritten_of_derivesMoreFilters {tokens : List Token} {filters : List DimFilter}
    (h : DerivesMoreFilters tokens filters) : ∀ f ∈ filters, f.value.IsWritten := by
  induction h with
  | nil => simp
  | cons hfirst _ ih =>
    exact List.forall_mem_cons.mpr ⟨isWritten_of_derivesFilter hfirst, ih⟩

theorem isWritten_of_derivesFilters {tokens : List Token} {filters : List DimFilter}
    (h : DerivesFilters tokens filters) : ∀ f ∈ filters, f.value.IsWritten := by
  induction h with
  | nil => simp
  | cons hfirst hmore =>
    exact List.forall_mem_cons.mpr
      ⟨isWritten_of_derivesFilter hfirst, isWritten_of_derivesMoreFilters hmore⟩

theorem isWritten_of_derivesRef {tokens : List Token} {ref : CellRef}
    (h : DerivesRef tokens ref) : ref.IsWritten := by
  induction h with
  | bare => exact ⟨⟨_, rfl⟩, by simp [CellRef.bare]⟩
  | filtered hfilters => exact ⟨⟨_, rfl⟩, isWritten_of_derivesFilters hfilters⟩

theorem isWritten_of_derivesSummand {tokens : List Token} {ref : CellRef}
    (h : DerivesSummand tokens ref) : ref.IsWritten := by
  induction h with
  | ref href => exact isWritten_of_derivesRef href
  | keyFigure => exact ⟨⟨_, rfl⟩, by simp [CellRef.bare]⟩

/-- What a phrase stands for is of a form that can be read. The arms of a case distinction are as
many as it takes. -/
def Phrase.IsWritten : (p : Phrase) → p.Meaning → Prop
  | level _, e | operand _, e | power, e | signed, e | primary, e => e.IsWritten
  | args, es | list, es => ∀ e ∈ es, e.IsWritten
  | arms, es => 2 ≤ es.length ∧ ∀ e ∈ es, e.IsWritten

theorem Expr.IsWritten.of_isLeaf {e : Expr} (hleaf : e.isLeaf = true) (h : e.IsWrittenNode) :
    e.IsWritten := by
  intro n hn
  rw [nodes_of_isLeaf hleaf, List.mem_singleton] at hn
  exact hn ▸ h

theorem Expr.IsWritten.binary {op : BinaryOp} {left right : Expr} (hleft : left.IsWritten)
    (hright : right.IsWritten) : (Expr.binary op left right).IsWritten := by
  intro n hn
  rcases mem_nodes_binary.mp hn with rfl | hn | hn
  · trivial
  · exact hleft n hn
  · exact hright n hn

theorem Expr.IsWritten.negate {operand : Expr} (h : operand.IsWritten) :
    (Expr.negate operand).IsWritten := by
  intro n hn
  rcases mem_nodes_negate.mp hn with rfl | hn
  · trivial
  · exact h n hn

theorem Expr.IsWritten.call {f : Function} {args : List Expr} (hargs : ∀ e ∈ args, e.IsWritten)
    (harity : f.arity.admits args.length = true) : (Expr.call f.name args).IsWritten := by
  intro n hn
  rcases mem_nodes_call.mp hn with rfl | ⟨arg, harg, hn⟩
  · exact ⟨f, f.ofName?_name, harity⟩
  · exact hargs arg harg n hn

theorem Derives.isWritten {p : Phrase} {tokens : List Token} {m : p.Meaning}
    (h : Derives p tokens m) : p.IsWritten m := by
  induction h with
  | single _ ih => exact ih
  | chain _ _ _ ihleft ihright => exact .binary ihleft ihright
  | sum _ ih => exact ih
  | product _ ih => exact ih
  | power _ ih => exact ih
  | base _ ih => exact ih
  | raise _ _ ihbase ihexponent => exact .binary ihbase ihexponent
  | unsigned _ ih => exact ih
  | negate _ ih => exact .negate ih
  | plus _ ih => exact ih
  | number => exact .of_isLeaf rfl trivial
  | parens _ ih => exact ih
  | subFormula => exact .of_isLeaf rfl trivial
  | constant => exact .of_isLeaf rfl trivial
  | call _ _ _ harity ih => exact .call ih harity
  | caseWhen _ _ _ ih => exact .call ih.2 (by simp [Function.arity, Arity.admits, ih.1])
  | reference _ _ hfilters =>
    exact .of_isLeaf rfl (isWritten_of_derivesMoreFilters hfilters)
  | cell href => exact .of_isLeaf rfl (isWritten_of_derivesRef href)
  | aggregate _ hsummand =>
    have href := isWritten_of_derivesSummand hsummand
    exact .of_isLeaf rfl (show CellRef.IsWritten _ from ⟨href.keyFigure, href.filters⟩)
  | noArgs => exact fun e he ↦ absurd he List.not_mem_nil
  | someArgs _ ih => exact ih
  | one _ ih => exact List.forall_mem_singleton.mpr ih
  | more _ _ ihfirst ihrest => exact List.forall_mem_cons.mpr ⟨ihfirst, ihrest⟩
  | lastArm _ _ _ _ ihcondition ihvalue =>
    exact ⟨by simp, List.forall_mem_cons.mpr ⟨ihcondition, List.forall_mem_singleton.mpr ihvalue⟩⟩
  | elseArm _ _ _ _ _ _ ihcondition ihvalue ihotherwise =>
    refine ⟨by simp, List.forall_mem_cons.mpr ⟨ihcondition, ?_⟩⟩
    exact List.forall_mem_cons.mpr ⟨ihvalue, List.forall_mem_singleton.mpr ihotherwise⟩
  | moreArms _ _ _ _ _ ihcondition ihvalue ihrest =>
    refine ⟨by simp, ?_⟩
    exact List.forall_mem_cons.mpr ⟨ihcondition, List.forall_mem_cons.mpr ⟨ihvalue, ihrest.2⟩⟩

theorem isWritten_of_body {c : Catalog} {name : String} {body : Expr}
    (h : c.body name = .ok body) : body.IsWritten := by
  rw [Catalog.body] at h
  obtain ⟨text, -, h⟩ := bind_eq_ok.mp h
  have hderives := parseExpr_eq_ok_iff.mp (readWith_eq_ok_iff.mp h)
  exact hderives.isWritten

theorem isWritten_of_statement {text : String} {s : Statement}
    (h : Statement.ofText text = .ok s) : s.target.IsWritten ∧ s.expr.IsWritten := by
  have hderives := Statement.ofText_eq_ok_iff.mp h
  generalize tokensOf text = tokens at hderives
  obtain ⟨htarget, hexpr⟩ := hderives
  exact ⟨isWritten_of_derivesRef htarget, hexpr.isWritten⟩

/-! ## What remains -/

/-- A part that remains when an expression that was read is expanded: a number, a reference or a
look-up of which the codes were replaced, an operator, or a call as it was written. -/
inductive Expr.Remains (c : Catalog) (r : Registry) : Expr → Prop where
  | number (value : Decimal) : Remains c r (.number value)
  | cell {ref ref' : CellRef} (hwritten : ref.IsWritten) (hexpand : ref.expand r = .ok ref') :
      Remains c r (.cell ref')
  | binary (op : BinaryOp) (left right : Expr) : Remains c r (.binary op left right)
  | negate (operand : Expr) : Remains c r (.negate operand)
  | call {name : String} {args : List Expr} (hlawful : IsLawfulCall name args) :
      Remains c r (.call name args)
  | reference {lookUp : ReferenceCall} {data : ReferenceData} {filters : List DimFilter}
      (hwritten : ∀ f ∈ lookUp.filters, f.value.IsWritten)
      (hdata : c.reference lookUp.name = .ok data)
      (hfilters : lookUp.filters.mapM (DimFilter.expand r) = .ok filters) :
      Remains c r (.reference { lookUp with filters })

section

variable {c : Catalog} {r : Registry}

theorem Expr.Remains.of_isLeaf {e : Expr} (hleaf : e.isLeaf = true) (h : e.Remains c r) :
    ∀ n ∈ e.nodes, n.Remains c r := by
  intro n hn
  rw [nodes_of_isLeaf hleaf, List.mem_singleton] at hn
  exact hn ▸ h

theorem remains_of_expandLeaf {openName : String → Except FormulaError Expr}
    (hopen : ∀ name e', openName name = .ok e' → ∀ n ∈ e'.nodes, n.Remains c r) {leaf e' : Expr}
    (hleaf : leaf.isLeaf = true) (hwritten : leaf.IsWrittenNode)
    (h : expandLeaf c r openName leaf = .ok e') : ∀ n ∈ e'.nodes, n.Remains c r := by
  cases leaf with
  | binary op left right => cases hleaf
  | negate operand => cases hleaf
  | call name args => cases hleaf
  | number value =>
    cases h
    exact .of_isLeaf rfl (.number value)
  | cell ref =>
    obtain ⟨ref', href, h⟩ := bind_eq_ok.mp h
    cases h
    exact .of_isLeaf rfl (.cell hwritten href)
  | subFormula name => exact hopen name e' h
  | constant name =>
    obtain ⟨value, -, h⟩ := bind_eq_ok.mp h
    cases h
    exact .of_isLeaf rfl (.number value)
  | reference call =>
    obtain ⟨data, hdata, h⟩ := bind_eq_ok.mp h
    obtain ⟨filters, hfilters, h⟩ := bind_eq_ok.mp h
    cases h
    exact .of_isLeaf rfl (.reference hwritten hdata (ofRegistry_eq_ok.mp hfilters))

/-- Whatever is in an expression that was expanded is what remains of something that was read. -/
theorem remains_of_expandWithin {limit room : Nat} {followed : List String} {e e' : Expr}
    (hwritten : e.IsWritten) (h : expandWithin c r limit room followed e = .ok e') :
    ∀ n ∈ e'.nodes, n.Remains c r := by
  -- Operators remain whatever they are, and a call keeps its number of arguments.
  have hpass {openName : String → Except FormulaError Expr} {e e' : Expr} (hwritten : e.IsWritten)
      (h : e.bindLeaves (expandLeaf c r openName) = .ok e')
      (hopen : ∀ name e', openName name = .ok e' → ∀ n ∈ e'.nodes, n.Remains c r) :
      ∀ n ∈ e'.nodes, n.Remains c r := by
    refine Expr.forall_nodes_of_bindLeaves h (fun leaf hmem hleaf leaf' h ↦ ?_) .binary .negate
      (fun name args args' hmem hlength ↦ ?_)
    · exact remains_of_expandLeaf hopen hleaf (hwritten leaf hmem) h
    · obtain ⟨f, hf, harity⟩ := hwritten _ hmem
      exact .call ⟨f, hf, hlength ▸ harity⟩
  induction room generalizing followed e e' with
  | zero =>
    rw [expandWithin] at h
    refine hpass hwritten h fun name e' hname ↦ ?_
    split_ifs at hname
  | succ room ih =>
    rw [expandWithin] at h
    refine hpass hwritten h fun name e' hname ↦ ?_
    split_ifs at hname
    obtain ⟨body, hbody, hinside⟩ := bind_eq_ok.mp hname
    exact ih (isWritten_of_body hbody) hinside

end

/-! ## What is expanded -/

/-- A filter that asks for the value of the current combination, or for the value of a text in the
registry. -/
def DimFilter.IsResolved (r : Registry) (f : DimFilter) : Prop :=
  f.value = .loop ∨ ∃ id text, f.value = .id id ∧ r.resolve f.dimension text = .ok id

/-- A reference of which the key figure and all filters are found in the registry. -/
structure CellRef.IsResolved (r : Registry) (ref : CellRef) : Prop where
  keyFigure : ∃ id text, ref.keyFigure = .id id ∧ r.resolve .keyFigure text = .ok id
  filters : ∀ f ∈ ref.filters, f.IsResolved r

namespace Expr

/-- An expression of which the outermost part is as expansion leaves it. -/
def IsExpandedNode (c : Catalog) (r : Registry) : Expr → Prop
  | cell ref => ref.IsResolved r
  | reference lookUp =>
    (∃ data, c.reference lookUp.name = .ok data) ∧ ∀ f ∈ lookUp.filters, f.IsResolved r
  | call name args => IsLawfulCall name args
  | subFormula _ | constant _ => False
  | _ => True

/-- An expression of which every part is as expansion leaves it. -/
def IsExpanded (c : Catalog) (r : Registry) (e : Expr) : Prop :=
  ∀ n ∈ e.nodes, n.IsExpandedNode c r

end Expr

section

variable {c : Catalog} {r : Registry}

theorem DimFilter.isResolved_of_expand {f f' : DimFilter} (hf : f.value.IsWritten)
    (h : f.expand r = .ok f') : f'.IsResolved r := by
  obtain ⟨dimension, value⟩ := f
  rw [expand] at h
  obtain ⟨list, -, h⟩ := bind_eq_ok.mp h
  cases value with
  | code text =>
    obtain ⟨id, hid, h⟩ := bind_eq_ok.mp h
    cases h
    exact .inr ⟨id, text, rfl, hid⟩
  | id id => exact absurd rfl (hf id)
  | loop =>
    cases h
    exact .inl rfl

theorem isResolved_of_expandFilters {filters filters' : List DimFilter}
    (hfilters : ∀ f ∈ filters, f.value.IsWritten)
    (h : filters.mapM (DimFilter.expand r) = .ok filters') :
    ∀ f ∈ filters', f.IsResolved r := by
  intro f' hf'
  obtain ⟨f, hf, hexpand⟩ := exists_mem_of_mapM_eq_ok h hf'
  exact DimFilter.isResolved_of_expand (hfilters f hf) hexpand

theorem CellRef.isResolved_of_expand {ref ref' : CellRef} (href : ref.IsWritten)
    (h : ref.expand r = .ok ref') : ref'.IsResolved r := by
  rw [expand] at h
  obtain ⟨keyFigure, hkeyFigure, h⟩ := bind_eq_ok.mp h
  obtain ⟨filters, hfilters, h⟩ := bind_eq_ok.mp h
  cases h
  obtain ⟨text, htext⟩ := href.keyFigure
  rw [htext] at hkeyFigure
  obtain ⟨id, hid, hkeyFigure⟩ := bind_eq_ok.mp hkeyFigure
  cases hkeyFigure
  exact ⟨⟨id, text, rfl, ofRegistry_eq_ok.mp hid⟩,
    isResolved_of_expandFilters href.filters (ofRegistry_eq_ok.mp hfilters)⟩

theorem Expr.Remains.isExpandedNode {n : Expr} (h : n.Remains c r) : n.IsExpandedNode c r := by
  obtain value | ⟨hwritten, hexpand⟩ | _ | _ | hlawful | ⟨hwritten, hdata, hfilters⟩ := h
  · trivial
  · exact CellRef.isResolved_of_expand hwritten hexpand
  · trivial
  · trivial
  · exact hlawful
  · exact ⟨⟨_, hdata⟩, isResolved_of_expandFilters hwritten hfilters⟩

theorem isExpanded_of_expandWithin {limit room : Nat} {followed : List String} {e e' : Expr}
    (hwritten : e.IsWritten) (h : expandWithin c r limit room followed e = .ok e') :
    e'.IsExpanded c r :=
  fun n hn ↦ (remains_of_expandWithin hwritten h n hn).isExpandedNode

theorem isExpanded_of_statement {limit : Nat} {text : String} {s s' : Statement}
    (hread : Statement.ofText text = .ok s) (h : s.expand c r limit = .ok s') :
    s'.target.IsResolved r ∧ s'.expr.IsExpanded c r := by
  obtain ⟨htarget, hexpr⟩ := isWritten_of_statement hread
  rw [Statement.expand] at h
  split at h
  · cases h
  · obtain ⟨target, hexpandTarget, h⟩ := bind_eq_ok.mp h
    obtain ⟨expr, hexpandExpr, h⟩ := bind_eq_ok.mp h
    cases h
    exact ⟨CellRef.isResolved_of_expand htarget hexpandTarget,
      isExpanded_of_expandWithin hexpr hexpandExpr⟩

end

end PlanLedger.Formula
