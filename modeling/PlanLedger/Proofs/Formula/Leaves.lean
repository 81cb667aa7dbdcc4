import PlanLedger.Formula.Syntax
import PlanLedger.Proofs.Refusal

/-!
# Passes over the leaves

An expression is built from its leaves by operators and calls. A pass puts an expression in the
place of every leaf and keeps what is between the leaves. So a pass is refused exactly if it is
refused at some leaf, and what holds of everything that is put in place, and of operators and calls,
holds of everything in the result.
-/

namespace PlanLedger.Formula

namespace Expr

def isLeaf : Expr → Bool
  | binary .. => false
  | negate _ => false
  | call .. => false
  | _ => true

/-- Expressions are built from leaves by operators and calls. -/
@[elab_as_elim]
theorem inductLeaves {P : Expr → Prop} (leaf : ∀ e, e.isLeaf = true → P e)
    (binary : ∀ op left right, P left → P right → P (binary op left right))
    (negate : ∀ operand, P operand → P (negate operand))
    (call : ∀ name args, (∀ e ∈ args, P e) → P (call name args)) (e : Expr) : P e :=
  match e with
  | .binary op left right => binary op left right (inductLeaves leaf binary negate call left)
      (inductLeaves leaf binary negate call right)
  | .negate operand => negate operand (inductLeaves leaf binary negate call operand)
  | .call name args => call name args fun e _ ↦ inductLeaves leaf binary negate call e
  | .number _ | .cell _ | .subFormula _ | .constant _ | .reference _ => leaf _ rfl

/-! ## What is in an expression -/

theorem nodes_of_isLeaf {e : Expr} (h : e.isLeaf = true) : e.nodes = [e] := by
  cases e with
  | binary op left right => cases h
  | negate operand => cases h
  | call name args => cases h
  | _ => simp [nodes]

theorem nodesOfAll_eq_flatMap (args : List Expr) : nodesOfAll args = args.flatMap nodes := by
  induction args with
  | nil => rw [nodesOfAll, List.flatMap_nil]
  | cons e rest ih => rw [nodesOfAll, ih, List.flatMap_cons]

@[simp] theorem mem_nodes_binary {op : BinaryOp} {left right e : Expr} :
    e ∈ (binary op left right).nodes ↔
      e = binary op left right ∨ e ∈ left.nodes ∨ e ∈ right.nodes := by
  rw [nodes, List.mem_cons, List.mem_append]

@[simp] theorem mem_nodes_negate {operand e : Expr} :
    e ∈ (negate operand).nodes ↔ e = negate operand ∨ e ∈ operand.nodes := by
  rw [nodes, List.mem_cons]

@[simp] theorem mem_nodes_call {name : String} {args : List Expr} {e : Expr} :
    e ∈ (call name args).nodes ↔ e = call name args ∨ ∃ arg ∈ args, e ∈ arg.nodes := by
  rw [nodes, List.mem_cons, nodesOfAll_eq_flatMap, List.mem_flatMap]

/-! ## What a pass returns -/

section

variable {ε : Type} {f : Expr → Except ε Expr} {e' : Expr}

theorem bindLeaves_of_isLeaf {e : Expr} (h : e.isLeaf = true) : e.bindLeaves f = f e := by
  cases e with
  | binary op left right => cases h
  | negate operand => cases h
  | call name args => cases h
  | _ => simp [bindLeaves]

theorem bindLeaves_binary_eq_ok {op : BinaryOp} {left right : Expr}
    (h : (binary op left right).bindLeaves f = .ok e') : ∃ left' right',
      left.bindLeaves f = .ok left' ∧ right.bindLeaves f = .ok right' ∧
        e' = binary op left' right' := by
  rw [bindLeaves] at h
  obtain ⟨left', hleft, h⟩ := bind_eq_ok.mp h
  obtain ⟨right', hright, h⟩ := bind_eq_ok.mp h
  cases h
  exact ⟨left', right', hleft, hright, rfl⟩

theorem bindLeaves_negate_eq_ok {operand : Expr} (h : (negate operand).bindLeaves f = .ok e') :
    ∃ operand', operand.bindLeaves f = .ok operand' ∧ e' = negate operand' := by
  rw [bindLeaves] at h
  obtain ⟨operand', hoperand, h⟩ := bind_eq_ok.mp h
  cases h
  exact ⟨operand', hoperand, rfl⟩

theorem bindLeaves_call_eq_ok {name : String} {args : List Expr}
    (h : (call name args).bindLeaves f = .ok e') :
    ∃ args', bindLeavesOfAll f args = .ok args' ∧ e' = call name args' := by
  rw [bindLeaves] at h
  obtain ⟨args', hargs, h⟩ := bind_eq_ok.mp h
  cases h
  exact ⟨args', hargs, rfl⟩

theorem bindLeavesOfAll_cons_eq_ok {e : Expr} {rest args' : List Expr}
    (h : bindLeavesOfAll f (e :: rest) = .ok args') : ∃ e' rest',
      e.bindLeaves f = .ok e' ∧ bindLeavesOfAll f rest = .ok rest' ∧ args' = e' :: rest' := by
  rw [bindLeavesOfAll] at h
  obtain ⟨e', he, h⟩ := bind_eq_ok.mp h
  obtain ⟨rest', hrest, h⟩ := bind_eq_ok.mp h
  cases h
  exact ⟨e', rest', he, hrest, rfl⟩

theorem bindLeavesOfAll_eq_mapM (args : List Expr) :
    bindLeavesOfAll f args = args.mapM fun e ↦ e.bindLeaves f := by
  induction args with
  | nil => rw [bindLeavesOfAll, List.mapM_nil]
  | cons e rest ih => rw [bindLeavesOfAll, ih, List.mapM_cons]

theorem exists_leaf_of_bindLeaves_eq_error {err : ε} {e : Expr} (h : e.bindLeaves f = .error err) :
    ∃ leaf ∈ e.nodes, leaf.isLeaf = true ∧ f leaf = .error err := by
  induction e using inductLeaves with
  | leaf e hleaf =>
    rw [bindLeaves_of_isLeaf hleaf] at h
    exact ⟨e, by simp [nodes_of_isLeaf hleaf], hleaf, h⟩
  | binary op left right ihleft ihright =>
    rw [bindLeaves] at h
    rcases bind_eq_error.mp h with hleft | ⟨left', -, h⟩
    · obtain ⟨leaf, hmem, hleaf⟩ := ihleft hleft
      exact ⟨leaf, by simp [hmem], hleaf⟩
    · rcases bind_eq_error.mp h with hright | ⟨right', -, h⟩
      · obtain ⟨leaf, hmem, hleaf⟩ := ihright hright
        exact ⟨leaf, by simp [hmem], hleaf⟩
      · cases h
  | negate operand ih =>
    rw [bindLeaves] at h
    rcases bind_eq_error.mp h with h | ⟨operand', -, h⟩
    · obtain ⟨leaf, hmem, hleaf⟩ := ih h
      exact ⟨leaf, by simp [hmem], hleaf⟩
    · cases h
  | call name args ih =>
    rw [bindLeaves, bindLeavesOfAll_eq_mapM] at h
    rcases bind_eq_error.mp h with h | ⟨args', -, h⟩
    · obtain ⟨arg, harg, hrefused⟩ := mapM_eq_error h
      obtain ⟨leaf, hmem, hleaf⟩ := ih arg harg hrefused
      exact ⟨leaf, mem_nodes_call.mpr (.inr ⟨arg, harg, hmem⟩), hleaf⟩
    · cases h

/-- The leaves of an expression, from left to right. -/
def leaves (e : Expr) : List Expr := e.nodes.filter isLeaf

theorem leaves_binary (op : BinaryOp) (left right : Expr) :
    (binary op left right).leaves = left.leaves ++ right.leaves := by
  rw [leaves, nodes, List.filter_cons_of_neg (by simp [isLeaf]), List.filter_append]
  rfl

theorem leaves_negate (operand : Expr) : (negate operand).leaves = operand.leaves := by
  rw [leaves, nodes, List.filter_cons_of_neg (by simp [isLeaf])]
  rfl

theorem leaves_call (name : String) (args : List Expr) :
    (call name args).leaves = args.flatMap leaves := by
  rw [leaves, nodes, List.filter_cons_of_neg (by simp [isLeaf]), nodesOfAll_eq_flatMap,
    List.filter_flatMap]
  rfl

/-- A pass goes from leaf to leaf: it is refused like the operation on the list of the leaves. -/
theorem bindLeaves_eq_error_iff {err : ε} {e : Expr} :
    e.bindLeaves f = .error err ↔ e.leaves.mapM f = .error err := by
  induction e using inductLeaves generalizing err with
  | leaf e hleaf =>
    have hleaves : e.leaves = [e] := by
      rw [leaves, nodes_of_isLeaf hleaf, List.filter_cons_of_pos hleaf]
      rfl
    rw [bindLeaves_of_isLeaf hleaf, hleaves, mapM_cons_eq_error]
    exact (or_iff_left fun h ↦ Avoids.ok _ h.2).symm
  | binary op left right ihleft ihright =>
    rw [bindLeaves, leaves_binary, mapM_append_eq_error, bind_eq_error, ihleft, ← ihright,
      ← exists_eq_ok_congr ihleft]
    simp only [bind_return_eq_error, exists_and_right]
  | negate operand ih => rw [bindLeaves, leaves_negate, ← ih, bind_return_eq_error]
  | call name args ih =>
    rw [bindLeaves, leaves_call, bindLeavesOfAll_eq_mapM, bind_return_eq_error]
    induction args generalizing err with
    | nil => exact iff_of_false (Avoids.ok _) (Avoids.ok _)
    | cons arg rest ihrest =>
      obtain ⟨harg, hrest⟩ := List.forall_mem_cons.mp ih
      rw [List.flatMap_cons, mapM_cons_eq_error, mapM_append_eq_error, ihrest hrest, harg,
        exists_eq_ok_congr harg]

theorem exists_eq_ok_of_bindLeaves_eq_ok {e leaf : Expr} (h : e.bindLeaves f = .ok e')
    (hmem : leaf ∈ e.nodes) (hleaf : leaf.isLeaf = true) : ∃ leaf', f leaf = .ok leaf' := by
  induction e using inductLeaves generalizing e' with
  | leaf e he =>
    rw [nodes_of_isLeaf he, List.mem_singleton] at hmem
    rw [bindLeaves_of_isLeaf he] at h
    exact ⟨e', hmem ▸ h⟩
  | binary op left right ihleft ihright =>
    obtain ⟨left', right', hleft, hright, -⟩ := bindLeaves_binary_eq_ok h
    rcases mem_nodes_binary.mp hmem with rfl | hmem | hmem
    · cases hleaf
    · exact ihleft hleft hmem
    · exact ihright hright hmem
  | negate operand ih =>
    obtain ⟨operand', hoperand, -⟩ := bindLeaves_negate_eq_ok h
    rcases mem_nodes_negate.mp hmem with rfl | hmem
    · cases hleaf
    · exact ih hoperand hmem
  | call name args ih =>
    obtain ⟨args', hargs, -⟩ := bindLeaves_call_eq_ok h
    rcases mem_nodes_call.mp hmem with rfl | ⟨arg, harg, hmem⟩
    · cases hleaf
    · rw [bindLeavesOfAll_eq_mapM] at hargs
      obtain ⟨arg', -, harg'⟩ := exists_eq_ok_of_mapM_eq_ok hargs harg
      exact ih arg harg harg' hmem

/-- What holds of everything that a pass puts in place, and of operators and calls, holds of
everything in the result. -/
theorem forall_nodes_of_bindLeaves {P : Expr → Prop} {e : Expr} (h : e.bindLeaves f = .ok e')
    (hleaf : ∀ leaf ∈ e.nodes, leaf.isLeaf = true → ∀ leaf', f leaf = .ok leaf' →
      ∀ n ∈ leaf'.nodes, P n)
    (hbinary : ∀ op left right, P (binary op left right)) (hnegate : ∀ operand, P (negate operand))
    (hcall : ∀ name args args', call name args ∈ e.nodes → args.length = args'.length →
      P (call name args')) : ∀ n ∈ e'.nodes, P n := by
  induction e using inductLeaves generalizing e' with
  | leaf e he =>
    rw [bindLeaves_of_isLeaf he] at h
    exact hleaf e (by simp [nodes_of_isLeaf he]) he e' h
  | binary op left right ihleft ihright =>
    obtain ⟨left', right', hleft, hright, rfl⟩ := bindLeaves_binary_eq_ok h
    intro n hn
    rcases mem_nodes_binary.mp hn with rfl | hn | hn
    · exact hbinary op left' right'
    · exact ihleft hleft (fun leaf hmem ↦ hleaf leaf (by simp [hmem]))
        (fun name args args' hmem ↦ hcall name args args' (by simp [hmem])) n hn
    · exact ihright hright (fun leaf hmem ↦ hleaf leaf (by simp [hmem]))
        (fun name args args' hmem ↦ hcall name args args' (by simp [hmem])) n hn
  | negate operand ih =>
    obtain ⟨operand', hoperand, rfl⟩ := bindLeaves_negate_eq_ok h
    intro n hn
    rcases mem_nodes_negate.mp hn with rfl | hn
    · exact hnegate operand'
    · exact ih hoperand (fun leaf hmem ↦ hleaf leaf (by simp [hmem]))
        (fun name args args' hmem ↦ hcall name args args' (by simp [hmem])) n hn
  | call name args ih =>
    obtain ⟨args', hargs, rfl⟩ := bindLeaves_call_eq_ok h
    rw [bindLeavesOfAll_eq_mapM] at hargs
    have hall := mapM_eq_ok.mp hargs
    intro n hn
    rcases mem_nodes_call.mp hn with rfl | ⟨arg', harg', hn⟩
    · exact hcall name args args' (by simp) hall.length_eq
    · obtain ⟨arg, harg, hok⟩ := exists_mem_of_mapM_eq_ok hargs harg'
      exact ih arg harg hok
        (fun leaf hmem ↦ hleaf leaf (mem_nodes_call.mpr (.inr ⟨arg, harg, hmem⟩)))
        (fun name args args' hmem ↦
          hcall name args args' (mem_nodes_call.mpr (.inr ⟨arg, harg, hmem⟩))) n hn

theorem bindLeaves_eq_self (e : Expr)
    (h : ∀ leaf ∈ e.nodes, leaf.isLeaf = true → f leaf = .ok leaf) : e.bindLeaves f = .ok e := by
  induction e using inductLeaves with
  | leaf e he =>
    rw [bindLeaves_of_isLeaf he]
    exact h e (by simp [nodes_of_isLeaf he]) he
  | binary op left right ihleft ihright =>
    rw [bindLeaves, ihleft fun leaf hleaf ↦ h leaf (by simp [hleaf]),
      ihright fun leaf hleaf ↦ h leaf (by simp [hleaf])]
    rfl
  | negate operand ih =>
    rw [bindLeaves, ih fun leaf hleaf ↦ h leaf (by simp [hleaf])]
    rfl
  | call name args ih =>
    have hargs : bindLeavesOfAll f args = .ok args := by
      rw [bindLeavesOfAll_eq_mapM, mapM_eq_ok, List.forall₂_same]
      exact fun arg harg ↦ ih arg harg fun leaf hleaf ↦
        h leaf (mem_nodes_call.mpr (.inr ⟨arg, harg, hleaf⟩))
    rw [bindLeaves, hargs]
    rfl

end

end Expr

end PlanLedger.Formula
