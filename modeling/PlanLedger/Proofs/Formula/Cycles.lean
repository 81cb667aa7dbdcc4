import Mathlib.Logic.Relation
import PlanLedger.Proofs.Formula.CatalogCheck

/-!
# Cycles of sub-formulas

The texts of a catalog run in a circle if some sub-formula uses itself, directly or through other
ones. Nothing in that speaks of a graph, of a path or of what has been left. The search for a cycle
follows a name only if it is new on its path; a path has no more names than there are
sub-formulas, so the search comes to an end on every catalog. It finds nothing exactly if the texts
do not run in a circle, and what it finds is a circle of them.
-/

namespace PlanLedger.Formula

/-! ## Names that lead back to themselves -/

section

variable {R : String → String → Prop} {chain : List String} {name : String}

theorem IsCycle.exists_transGen (h : IsCycle R chain) : ∃ name, Relation.TransGen R name name := by
  obtain ⟨first, second, rest, rfl⟩ := h.exists_eq_cons_cons
  obtain ⟨hfirst, hrest⟩ := List.isChain_cons_cons.mp h.isChain
  have hlast : (second :: rest).getLast (List.cons_ne_nil _ _) = first := by
    have hends := h.head_eq
    rw [List.head?_cons, List.getLast?_cons_cons,
      List.getLast?_eq_some_getLast (List.cons_ne_nil _ _)] at hends
    exact (Option.some.inj hends).symm
  have hback : Relation.ReflTransGen R second first :=
    List.relationReflTransGen_of_exists_isChain_cons rest hrest hlast
  exact ⟨first, .head' hfirst hback⟩

/-- What can be followed only finitely far does not lead back to itself. -/
theorem not_transGen_of_acc (h : Acc (fun b a ↦ R a b) name) : ¬ Relation.TransGen R name name := by
  induction h with
  | intro name _ ih =>
    intro hround
    -- The next name on the way back leads back to itself as well.
    obtain ⟨next, hnext, hback⟩ := Relation.TransGen.head'_iff.mp hround
    exact ih next hnext (.tail' hback hnext)

end

/-! ## The end of the search -/

namespace CallGraph

variable {g : CallGraph} {c : Catalog}

/-- From a name that is new on a path the search goes on to a name that it uses, and the path is
longer by one. -/
def GoesOn (g : CallGraph) (place next : List String × String) : Prop :=
  place.2 ∉ place.1 ∧ g.Calls place.2 next.2 ∧ next.1 = place.1 ++ [place.2]

theorem exists_get?_of_calls {a b : String} (h : g.Calls a b) : ∃ names, g.get? a = some names := by
  rw [Calls, uses] at h
  refine Option.ne_none_iff_exists'.mp fun hnone ↦ ?_
  rw [hnone] at h
  exact List.not_mem_nil h

/-- The search goes on only finitely often, whatever the graph is. -/
theorem wellFounded_goesOn (g : CallGraph) : WellFounded fun next place ↦ g.GoesOn place next := by
  refine Subrelation.wf ?_ (measure fun place : List String × String ↦ g.countOff place.1).wf
  rintro ⟨path', next⟩ ⟨path, name⟩ ⟨hnew, hcalls, rfl⟩
  obtain ⟨names, hnames⟩ := exists_get?_of_calls hcalls
  exact countOff_lt hnames hnew

theorem findCycle?_eq_none_iff :
    g.findCycle? = none ↔ ∀ name, ¬ Relation.TransGen g.Calls name name := by
  constructor
  · intro h name
    exact not_transGen_of_acc (ends_of_findCycle? h name)
  · intro h
    refine Option.eq_none_iff_forall_ne_some.mpr fun chain hchain ↦ ?_
    obtain ⟨name, hname⟩ := (isCycle_of_findCycle? hchain).exists_transGen
    exact h name hname

theorem calls_eq_uses (h : ofCatalog c = .ok g) : g.Calls = c.Uses :=
  funext₂ fun _ _ ↦ propext (calls_iff h)

end CallGraph

/-! ## What is found -/

/-- **Cycles are found.** In a catalog of which every text can be read, the search for a cycle goes
on only finitely often. It finds nothing exactly if no sub-formula uses itself, directly or through
others; and what it finds are names of which each uses the next one in its text, from one name back
to it, with no other name twice. -/
theorem cycles_found (c : Catalog)
    (hread : ∀ name ∈ c.subFormulas.keys, ∃ body, c.body name = .ok body) :
    ∃ g, CallGraph.ofCatalog c = .ok g ∧
      (WellFounded fun next place ↦ g.GoesOn place next) ∧
      (g.findCycle? = none ↔ ∀ name, ¬ Relation.TransGen c.Uses name name) ∧
      ∀ chain, g.findCycle? = some chain → IsCycle c.Uses chain := by
  obtain ⟨g, hg⟩ := CallGraph.exists_ofCatalog_iff.mpr hread
  rw [← CallGraph.calls_eq_uses hg]
  exact ⟨g, hg, g.wellFounded_goesOn, CallGraph.findCycle?_eq_none_iff,
    fun chain ↦ CallGraph.isCycle_of_findCycle?⟩

/-- Three sub-formulas in a circle, one of which is used by both others, and a name that stands for
nothing. -/
private def roundabout : Catalog :=
  ((({} : Catalog).withSubFormula "FEE" "$NET + $TAX").withSubFormula "NET" "$OLD + $TAX")
    |>.withSubFormula "TAX" "-$FEE"

/-- The circle is found past the name that stands for nothing. -/
theorem cycles_found_roundabout :
    (∀ name ∈ roundabout.subFormulas.keys, ∃ body, roundabout.body name = .ok body) ∧
      IsCycle roundabout.Uses ["FEE", "NET", "TAX", "FEE"] ∧
      ∃ name, Relation.TransGen roundabout.Uses name name := by
  let circle : CallGraph :=
    .ofList [("FEE", ["NET", "TAX"]), ("NET", ["OLD", "TAX"]), ("TAX", ["FEE"])]
  have hgraph : CallGraph.ofCatalog roundabout = .ok circle := by decide +kernel
  have hread := CallGraph.exists_ofCatalog_iff.mp ⟨circle, hgraph⟩
  obtain ⟨g, hg, -, hnone, hcycle⟩ := cycles_found roundabout hread
  obtain rfl : circle = g := Except.ok.inj (hgraph.symm.trans hg)
  have hkeys : circle.keys = ["FEE", "NET", "TAX"] := by decide +kernel
  have hfee : circle.get? "FEE" = some ["NET", "TAX"] := by decide +kernel
  have hnet : circle.get? "NET" = some ["OLD", "TAX"] := by decide +kernel
  have hold : circle.get? "OLD" = none := by decide +kernel
  have htax : circle.get? "TAX" = some ["FEE"] := by decide +kernel
  have hsome : circle.findCycle? = some ["FEE", "NET", "TAX", "FEE"] := by
    rw [CallGraph.findCycle?, hkeys, CallGraph.followAll,
      CallGraph.follow_of_get?_eq_some (by decide) (by decide) hfee, CallGraph.followAll,
      CallGraph.follow_of_get?_eq_some (by decide) (by decide) hnet, CallGraph.followAll,
      CallGraph.follow_of_get?_eq_none (by decide) (by decide) hold, ok_bind, CallGraph.followAll,
      CallGraph.follow_of_get?_eq_some (by decide) (by decide) htax, CallGraph.followAll,
      CallGraph.follow_of_mem (by decide)]
    rfl
  refine ⟨hread, hcycle _ hsome, ?_⟩
  by_contra hno
  have hnothing := hnone.mpr fun name hname ↦ hno ⟨name, hname⟩
  rw [hsome] at hnothing
  cases hnothing

end PlanLedger.Formula
