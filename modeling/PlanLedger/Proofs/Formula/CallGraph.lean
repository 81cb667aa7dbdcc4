import Mathlib.Data.List.Chain
import PlanLedger.Formula.CallGraph
import PlanLedger.Proofs.Refusal
import PlanLedger.Proofs.SortedMap.Lookup

/-!
# The search for a cycle

Names are followed depth first, so the path to a name is always a chain in which each name uses the
next one. A name that is met again on the path closes a cycle. A name that is left has had
everything it uses left before it; nothing that is used by it, however indirectly, leads back to
it. The search therefore ends with a cycle exactly if there is one.
-/

namespace PlanLedger.Formula

/-! ## Cycles -/

/-- Names of which each is related to the next one, from one name back to it, where no other name
is met twice. -/
structure IsCycle (R : String → String → Prop) (chain : List String) : Prop where
  isChain : chain.IsChain R
  two_le : 2 ≤ chain.length
  head_eq : chain.head? = chain.getLast?
  nodup : chain.tail.Nodup

section

variable {R S : String → String → Prop} {chain path : List String} {name : String}

theorem IsCycle.imp (h : IsCycle R chain) (hRS : ∀ a b, R a b → S a b) : IsCycle S chain where
  isChain := h.isChain.imp hRS
  two_le := h.two_le
  head_eq := h.head_eq
  nodup := h.nodup

theorem IsCycle.exists_eq_cons_cons (h : IsCycle R chain) :
    ∃ first second rest, chain = first :: second :: rest := by
  match chain, h.two_le with
  | first :: second :: rest, _ => exact ⟨first, second, rest, rfl⟩

theorem IsCycle.exists_next (h : IsCycle R chain) (hname : name ∈ chain) :
    ∃ next ∈ chain, R name next := by
  obtain ⟨first, second, rest, rfl⟩ := h.exists_eq_cons_cons
  obtain ⟨before, after, hsplit⟩ := List.append_of_mem hname
  cases after with
  | nil =>
    -- The last name is also the first one.
    have hlast : first = name := by
      have hends := h.head_eq
      rw [hsplit, List.getLast?_append, List.getLast?_singleton, ← hsplit] at hends
      exact Option.some.inj hends
    have hfirst : R first second := (List.isChain_cons_cons.mp h.isChain).1
    exact ⟨second, by simp, hlast ▸ hfirst⟩
  | cons next after =>
    have hchain := h.isChain
    rw [hsplit] at hchain
    have hnext : R name next := (List.isChain_cons_cons.mp hchain.right_of_append).1
    exact ⟨next, by simp [hsplit], hnext⟩

/-- What can be followed only finitely far is on no cycle. -/
theorem IsCycle.not_acc (h : IsCycle R chain) (hname : name ∈ chain) :
    ¬ Acc (fun b a ↦ R a b) name := by
  intro hacc
  induction hacc with
  | intro name _ ih =>
    obtain ⟨next, hnext, hR⟩ := h.exists_next hname
    exact ih next hR hnext

theorem dropWhile_eq_cons (hname : name ∈ path) : ∃ before rest,
    path = before ++ name :: rest ∧ path.dropWhile (· != name) = name :: rest := by
  obtain ⟨before, rest, rfl, hbefore⟩ := List.eq_append_cons_of_mem hname
  have hpass : ∀ a ∈ before, (a != name) = true := by
    intro a ha
    exact bne_iff_ne.mpr fun heq ↦ hbefore (heq ▸ ha)
  refine ⟨before, rest, rfl, ?_⟩
  rw [List.dropWhile_append_of_pos hpass, List.dropWhile_cons_of_neg (by simp)]

theorem isCycle_of_mem (hname : name ∈ path) (hpath : path.Nodup)
    (hchain : (path ++ [name]).IsChain R) : IsCycle R (path.dropWhile (· != name) ++ [name]) := by
  obtain ⟨before, rest, rfl, hdrop⟩ := dropWhile_eq_cons hname
  rw [hdrop]
  obtain ⟨hfresh, hrest⟩ := List.nodup_cons.mp (List.nodup_append.mp hpath).2.1
  rw [List.append_assoc] at hchain
  exact {
    isChain := hchain.right_of_append
    two_le := by simp
    head_eq := by rw [List.getLast?_concat, List.cons_append, List.head?_cons]
    nodup := by
      rw [List.cons_append, List.tail_cons]
      exact List.nodup_append.mpr ⟨hrest, by simp, fun a ha b hb heq ↦
        hfresh (List.mem_singleton.mp hb ▸ heq ▸ ha)⟩ }

end

/-! ## The search -/

namespace CallGraph

variable {g : CallGraph}

def Calls (g : CallGraph) (a b : String) : Prop := b ∈ g.uses a

/-- From a name one comes only finitely far by following what is used. -/
def Ends (g : CallGraph) (name : String) : Prop := Acc (fun b a ↦ g.Calls a b) name

theorem ends_of_get?_eq_none {name : String} (h : g.get? name = none) : g.Ends name := by
  refine .intro name fun b hb ↦ ?_
  rw [Calls, uses, h] at hb
  exact absurd hb List.not_mem_nil

/-- What a search that has left the names `left` may find for some more names: a cycle, or that
one comes only finitely far from all of them. -/
def Finds (g : CallGraph) (left names : List String) : Except (List String) (List String) → Prop
  | .error chain => IsCycle g.Calls chain
  | .ok left' => left ⊆ left' ∧ names ⊆ left' ∧ ∀ name ∈ left', g.Ends name

theorem Finds.bind {left names rest : List String} {x : Except (List String) (List String)}
    {f : List String → Except (List String) (List String)} (hx : g.Finds left names x)
    (hf : ∀ left', names ⊆ left' → (∀ name ∈ left', g.Ends name) → g.Finds left' rest (f left')) :
    g.Finds left (names ++ rest) (x >>= f) := by
  cases x with
  | error chain => exact hx
  | ok left' =>
    obtain ⟨hsub, hnames, hends⟩ := hx
    have hnext := hf left' hnames hends
    rw [ok_bind]
    cases hresult : f left' with
    | error chain =>
      rw [hresult] at hnext
      exact hnext
    | ok left'' =>
      rw [hresult] at hnext
      obtain ⟨hsub', hrest, hends'⟩ := hnext
      exact ⟨List.Subset.trans hsub hsub',
        List.append_subset.mpr ⟨List.Subset.trans hnames hsub', hrest⟩, hends'⟩

theorem Finds.mono {left names names' : List String} {x : Except (List String) (List String)}
    (hx : g.Finds left names x) (hsub : names' ⊆ names) : g.Finds left names' x := by
  cases x with
  | error chain => exact hx
  | ok left' => exact ⟨hx.1, List.Subset.trans hsub hx.2.1, hx.2.2⟩

section

variable {path left names : List String} {name : String}

theorem follow_of_mem (h : name ∈ path) :
    g.follow path left name = .error (path.dropWhile (· != name) ++ [name]) := by
  rw [follow, dif_pos h]

theorem follow_of_mem_left (hpath : name ∉ path) (hleft : name ∈ left) :
    g.follow path left name = .ok left := by
  rw [follow, dif_neg hpath, if_pos hleft]

theorem follow_of_get?_eq_none (hpath : name ∉ path) (hleft : name ∉ left)
    (hnone : g.get? name = none) : g.follow path left name = .ok (name :: left) := by
  rw [follow, dif_neg hpath, if_neg hleft]
  split
  · rfl
  · rename_i hnames
    cases hnone.symm.trans hnames

theorem follow_of_get?_eq_some (hpath : name ∉ path) (hleft : name ∉ left)
    (hnames : g.get? name = some names) :
    g.follow path left name = do return name :: (← g.followAll (path ++ [name]) left names) := by
  rw [follow, dif_neg hpath, if_neg hleft]
  split
  · rename_i hnone
    cases hnames.symm.trans hnone
  · rename_i hsame
    cases hnames.symm.trans hsame
    rfl

end

mutual

theorem finds_follow {path left : List String} (name : String) (hpath : path.Nodup)
    (hchain : (path ++ [name]).IsChain g.Calls) (hleft : ∀ name ∈ left, g.Ends name) :
    g.Finds left [name] (follow g path left name) := by
  by_cases hmet : name ∈ path
  · rw [follow_of_mem hmet]
    exact isCycle_of_mem hmet hpath hchain
  by_cases hbefore : name ∈ left
  · rw [follow_of_mem_left hmet hbefore]
    exact ⟨List.Subset.refl _, by simpa using hbefore, hleft⟩
  cases hnames : g.get? name with
  | none =>
    rw [follow_of_get?_eq_none hmet hbefore hnames]
    refine ⟨List.subset_cons_self _ _, by simp, ?_⟩
    exact List.forall_mem_cons.mpr ⟨ends_of_get?_eq_none hnames, hleft⟩
  | some names =>
    rw [follow_of_get?_eq_some hmet hbefore hnames]
    have huses : g.uses name = names := by rw [uses, hnames, Option.getD_some]
    have hless : g.countOff (path ++ [name]) < g.countOff path := countOff_lt hnames hmet
    have hpath' : (path ++ [name]).Nodup := by
      rw [List.nodup_append]
      exact ⟨hpath, by simp, fun a ha b hb heq ↦ hmet (List.mem_singleton.mp hb ▸ heq ▸ ha)⟩
    have hchain' : ∀ next ∈ names, (path ++ [name] ++ [next]).IsChain g.Calls := by
      intro next hnext
      refine hchain.append (List.isChain_singleton next) ?_
      simpa [Calls, huses] using hnext
    have hfollowed := finds_followAll names hpath' hchain' hleft
    refine (hfollowed.bind fun left' hall hends ↦ (?_ : g.Finds left' [name] _)).mono
      (List.subset_append_right names [name])
    -- A name ends if everything that it uses does.
    refine ⟨List.subset_cons_self _ _, by simp, List.forall_mem_cons.mpr ⟨?_, hends⟩⟩
    refine .intro name fun next hnext ↦ ?_
    rw [Calls, huses] at hnext
    exact hends next (hall hnext)
termination_by (g.countOff path, 0)
decreasing_by exact Prod.Lex.left _ _ hless

theorem finds_followAll {path left : List String} (names : List String) (hpath : path.Nodup)
    (hchain : ∀ name ∈ names, (path ++ [name]).IsChain g.Calls)
    (hleft : ∀ name ∈ left, g.Ends name) : g.Finds left names (followAll g path left names) := by
  match names with
  | [] =>
    rw [followAll]
    exact ⟨List.Subset.refl _, List.nil_subset _, hleft⟩
  | name :: rest =>
    rw [followAll]
    have hfirst := finds_follow name hpath (hchain name List.mem_cons_self) hleft
    have hrest : ∀ next ∈ rest, (path ++ [next]).IsChain g.Calls :=
      fun next hnext ↦ hchain next (List.mem_cons_of_mem _ hnext)
    exact hfirst.bind fun left' _ hends ↦ finds_followAll rest hpath hrest hends
termination_by (g.countOff path, names.length + 1)
decreasing_by
  · exact Prod.Lex.right _ (by simp)
  · exact Prod.Lex.right _ (by simp)

end

theorem finds_keys (g : CallGraph) : g.Finds [] g.keys (followAll g [] [] g.keys) :=
  finds_followAll g.keys List.nodup_nil (fun name _ ↦ List.isChain_singleton name) (by simp)

/-- What is reported as a cycle is one. -/
theorem isCycle_of_findCycle? {chain : List String} (h : g.findCycle? = some chain) :
    IsCycle g.Calls chain := by
  have hfound := finds_keys g
  rw [findCycle?] at h
  cases hresult : followAll g [] [] g.keys with
  | ok left =>
    rw [hresult] at h
    cases h
  | error chain' =>
    rw [hresult] at h hfound
    cases h
    exact hfound

/-- If no cycle is reported, there is none. -/
theorem ends_of_findCycle? (h : g.findCycle? = none) (name : String) : g.Ends name := by
  have hfound := finds_keys g
  rw [findCycle?] at h
  cases hresult : followAll g [] [] g.keys with
  | error chain =>
    rw [hresult] at h
    cases h
  | ok left =>
    rw [hresult] at hfound
    by_cases hname : name ∈ g.keys
    · exact hfound.2.2 name (hfound.2.1 hname)
    · refine ends_of_get?_eq_none (Option.eq_none_iff_forall_ne_some.mpr fun names hnames ↦ ?_)
      exact hname (SortedMap.mem_keys_iff.mpr ⟨names, hnames⟩)

end CallGraph

end PlanLedger.Formula
