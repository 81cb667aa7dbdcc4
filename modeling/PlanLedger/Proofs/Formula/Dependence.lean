import PlanLedger.Formula.ReferenceValue
import PlanLedger.Proofs.Formula.Faults
import PlanLedger.Proofs.Store.Agreement

/-!
# What values depend on

An expression reads the store at its cells, and the store is read for its look-ups before it is
evaluated; nothing else in an expression looks at the store. So an expression has the same value in
two stores, or fails alike, if each of its cells and look-ups does. A cell does if the stores agree
on all cells of its key figure that its filters and the scope reach, and a look-up if they agree on
those of the key figure of its source.
-/

namespace PlanLedger.Formula

open Store (AgreeOn)

/-! ## Passes over leaves -/

namespace Expr

theorem bindLeaves_congr {ε : Type} {f g : Expr → Except ε Expr} {e : Expr}
    (h : ∀ leaf ∈ e.nodes, leaf.isLeaf = true → f leaf = g leaf) :
    e.bindLeaves f = e.bindLeaves g := by
  induction e using inductLeaves with
  | leaf e hleaf =>
    rw [bindLeaves_of_isLeaf hleaf, bindLeaves_of_isLeaf hleaf]
    exact h e (by simp [nodes_of_isLeaf hleaf]) hleaf
  | binary op left right ihleft ihright =>
    rw [bindLeaves, bindLeaves, ihleft fun leaf hmem ↦ h leaf (by simp [hmem]),
      ihright fun leaf hmem ↦ h leaf (by simp [hmem])]
  | negate operand ih => rw [bindLeaves, bindLeaves, ih fun leaf hmem ↦ h leaf (by simp [hmem])]
  | call name args ih =>
    have hargs : ∀ arg ∈ args, arg.bindLeaves f = arg.bindLeaves g := fun arg harg ↦
      ih arg harg fun leaf hmem ↦ h leaf (mem_nodes_call.mpr (.inr ⟨arg, harg, hmem⟩))
    rw [bindLeaves, bindLeaves, bindLeavesOfAll_eq_mapM, bindLeavesOfAll_eq_mapM, mapM_congr hargs]

end Expr

/-! ## Evaluation -/

section

variable {x x' : Context}

theorem evaluateIf_congr {args : List Expr}
    (h : ∀ e ∈ args, e.evaluate x = e.evaluate x') : evaluateIf x args = evaluateIf x' args := by
  match args with
  | [condition, value, otherwise] =>
    rw [evaluateIf, evaluateIf, h condition (by simp), h value (by simp), h otherwise (by simp)]
  | [] | [_] | [_, _] | _ :: _ :: _ :: _ :: _ => simp only [evaluateIf]

theorem evaluateCase_congr {args : List Expr}
    (h : ∀ e ∈ args, e.evaluate x = e.evaluate x') :
    evaluateCase x args = evaluateCase x' args := by
  induction args using List.twoStepInduction with
  | nil => rw [evaluateCase, evaluateCase]
  | singleton otherwise => rw [evaluateCase, evaluateCase, h otherwise (by simp)]
  | cons_cons condition value rest ih =>
    rw [evaluateCase, evaluateCase, h condition (by simp), h value (by simp),
      ih fun e he ↦ h e (by simp [he])]

/-- **Evaluation looks at cells only.** If every cell of an expression has the same value in two
contexts, the expression has, and if some do not, it fails alike. -/
theorem evaluate_congr {e : Expr}
    (h : ∀ ref, .cell ref ∈ e.nodes → ref.evaluate x = ref.evaluate x') :
    e.evaluate x = e.evaluate x' := by
  induction e using Expr.inductLeaves with
  | leaf e hleaf =>
    cases e with
    | binary op left right => cases hleaf
    | negate operand => cases hleaf
    | call name args => cases hleaf
    | cell ref =>
      rw [Expr.evaluate, Expr.evaluate]
      exact h ref (by simp [Expr.nodes])
    | _ => simp only [Expr.evaluate]
  | binary op left right ihleft ihright =>
    rw [Expr.evaluate, Expr.evaluate, ihleft fun ref hmem ↦ h ref (by simp [hmem]),
      ihright fun ref hmem ↦ h ref (by simp [hmem])]
  | negate operand ih =>
    rw [Expr.evaluate, Expr.evaluate, ih fun ref hmem ↦ h ref (by simp [hmem])]
  | call name args ih =>
    have hargs : ∀ arg ∈ args, arg.evaluate x = arg.evaluate x' := fun arg harg ↦
      ih arg harg fun ref hmem ↦ h ref (Expr.mem_nodes_call.mpr (.inr ⟨arg, harg, hmem⟩))
    rw [Expr.evaluate, Expr.evaluate]
    simp only [evaluateAll_eq_mapM, mapM_congr hargs, evaluateIf_congr hargs,
      evaluateCase_congr hargs]

theorem evaluateScalar_congr {e : Expr} {scale : Nat}
    (h : ∀ ref, .cell ref ∈ e.nodes → ref.evaluate x = ref.evaluate x') :
    e.evaluateScalar x scale = e.evaluateScalar x' scale := by
  rw [Expr.evaluateScalar, Expr.evaluateScalar, evaluate_congr h]

end

/-! ## Cells and look-ups -/

section

variable {cells : Cell → Prop} {s s' : Store}

theorem CellRef.evaluate_congr {r : Registry} {scope : Scope} {b : Bindings} {ref : CellRef}
    (h : AgreeOn cells s s')
    (hreach : ∀ keyFigure (f : Filter), ref.resolveKeyFigure r b = .ok keyFigure →
      ∀ c, Filter.selects (f.insert .keyFigure keyFigure) scope c = true → cells c) :
    ref.evaluate ⟨s, r, scope, b⟩ = ref.evaluate ⟨s', r, scope, b⟩ := by
  rw [evaluate, evaluate]
  cases hresolve : ref.resolve r b with
  | error err => rfl
  | ok found =>
    obtain ⟨keyFigure, filter⟩ := found
    rw [resolve] at hresolve
    obtain ⟨keyFigure', hkeyFigure, hrest⟩ := bind_eq_ok.mp hresolve
    obtain ⟨filter', -, hfound⟩ := bind_eq_ok.mp hrest
    cases hfound
    have hcells := hreach keyFigure filter hkeyFigure
    simp only [ok_bind, h.get_eq hcells, fun kind ↦ h.aggregate?_eq kind hcells]

namespace ReferenceContext

/-- A look-up has the same value in two stores that agree on all that its filters, laid over any
others, reach; that may be in any session. -/
theorem value_congr_of_filters {x : ReferenceContext} {b : Bindings} {call : ReferenceCall}
    (h : AgreeOn cells x.store s')
    (hreach : ∀ data keyFigure (f upper : Filter), x.catalog.reference call.name = .ok data →
      x.registry.resolve .keyFigure data.keyFigure = .ok keyFigure →
      resolveFilters x.registry b call.filters = .ok upper →
      ∀ c, Filter.selects ((f.merged upper).insert .keyFigure keyFigure) {} c = true → cells c) :
    x.value b call = { x with store := s' }.value b call := by
  rw [value, value]
  dsimp only
  cases hdata : x.catalog.reference call.name with
  | error err => rfl
  | ok data =>
    rw [ok_bind, ok_bind]
    cases hkeyFigure : x.registry.resolve .keyFigure data.keyFigure with
    | error err => rfl
    | ok keyFigure =>
      cases hupper : resolveFilters x.registry b call.filters with
      | error err => rfl
      | ok upper =>
        have hcells := fun f ↦ hreach data keyFigure f upper hdata hkeyFigure hupper
        have hfound : ofRegistry (.ok keyFigure) = .ok keyFigure := rfl
        have hfilter : { x with store := s' }.sourceFilter data = x.sourceFilter data := rfl
        simp only [hfound, ok_bind, hfilter, fun f ↦ h.aggregate?_eq data.kind (hcells f)]

/-- A look-up has the same value in two stores that agree on all cells of its key figure. -/
theorem value_congr {x : ReferenceContext} {b : Bindings} {call : ReferenceCall}
    (h : AgreeOn cells x.store s')
    (hreach : ∀ data keyFigure (f : Filter), x.catalog.reference call.name = .ok data →
      x.registry.resolve .keyFigure data.keyFigure = .ok keyFigure →
      ∀ c, Filter.selects (f.insert .keyFigure keyFigure) {} c = true → cells c) :
    x.value b call = { x with store := s' }.value b call :=
  value_congr_of_filters h fun data keyFigure _ _ hdata hkeyFigure _ ↦
    hreach data keyFigure _ hdata hkeyFigure

/-- Two contexts in which every look-up of an expression has the same value put the same in their
places. -/
theorem substitute_congr {x x' : ReferenceContext} {b : Bindings} {e : Expr}
    (h : ∀ call, .reference call ∈ e.nodes → x.value b call = x'.value b call) :
    x.substitute b e = x'.substitute b e := by
  refine Expr.bindLeaves_congr fun leaf hmem _ ↦ ?_
  cases leaf with
  | reference call => rw [substituteLeaf, substituteLeaf, h call hmem]
  | _ => rfl

theorem cell_mem_of_substitute {x : ReferenceContext} {b : Bindings} {e e' : Expr}
    (h : x.substitute b e = .ok e') {ref : CellRef} (href : .cell ref ∈ e'.nodes) :
    .cell ref ∈ e.nodes := by
  refine Expr.forall_nodes_of_bindLeaves (P := fun n ↦ ∀ ref, n = .cell ref → .cell ref ∈ e.nodes)
    h (fun leaf hmem hleaf leaf' hleaf' ↦ ?_) nofun nofun nofun _ href ref rfl
  cases leaf with
  | binary op left right => cases hleaf
  | negate operand => cases hleaf
  | call name args => cases hleaf
  | reference call =>
    obtain ⟨value, -, hleaf'⟩ := bind_eq_ok.mp hleaf'
    cases hleaf'
    simp [Expr.nodes]
  | _ =>
    cases hleaf'
    rintro n hn ref rfl
    rw [Expr.nodes_of_isLeaf hleaf, List.mem_singleton] at hn
    rw [hn]
    exact hmem

end ReferenceContext

end

/-! ## The key figures that are read -/

/-- An expression reads a key figure if one of its cells or the source of one of its look-ups is of
that key figure. -/
def Expr.Reads (c : Catalog) (r : Registry) (keyFigure : DimId) (e : Expr) : Prop :=
  (∃ ref b, .cell ref ∈ e.nodes ∧ ref.resolveKeyFigure r b = .ok keyFigure) ∨
    ∃ call data, .reference call ∈ e.nodes ∧ c.reference call.name = .ok data ∧
      r.resolve .keyFigure data.keyFigure = .ok keyFigure

end PlanLedger.Formula
