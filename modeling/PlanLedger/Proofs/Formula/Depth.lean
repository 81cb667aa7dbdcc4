import PlanLedger.Proofs.Formula.CatalogCheck

/-!
# The depth to which names are followed

Expansion follows names to a limit. With a greater limit it comes to the same result, unless it was
cut off at the limit; so the limit takes results away and never changes one. This is an order
between results that every step of an expansion keeps.

The names that are followed at a time are different sub-formulas of the catalog, so a limit that is
greater than their count cuts nothing off. Then all that stops an expansion that runs in a circle is
the circle itself, and it is reported exactly if the expansion, going through the leaves from left
to right, comes to it.
-/

namespace PlanLedger.Formula

/-! ## Results that were cut off -/

def IsCutOff {α : Type} (result : Except FormulaError α) : Prop :=
  ∃ limit chain, result = .error (.expansionTooDeep limit chain)

/-- The second result is the first one, unless that was cut off. -/
def Deepens {α : Type} (result deeper : Except FormulaError α) : Prop :=
  ¬ IsCutOff result → deeper = result

theorem not_isCutOff_ok {α : Type} (a : α) : ¬ IsCutOff (.ok a) := by
  rintro ⟨limit, chain, h⟩
  cases h

namespace Deepens

variable {α β : Type} {x y : Except FormulaError α}

theorem refl (x : Except FormulaError α) : Deepens x x := fun _ ↦ rfl

theorem of_isCutOff (h : IsCutOff x) : Deepens x y := fun hnot ↦ absurd h hnot

theorem eq_ok {a : α} (h : Deepens x y) (hx : x = .ok a) : y = .ok a := by
  subst hx
  exact h (not_isCutOff_ok a)

theorem bind {f g : α → Except FormulaError β} (h : Deepens x y) (hf : ∀ a, Deepens (f a) (g a)) :
    Deepens (x >>= f) (y >>= g) := by
  intro hnot
  cases x with
  | ok a =>
    rw [h (not_isCutOff_ok a)]
    exact hf a hnot
  | error err =>
    rw [h fun ⟨limit, chain, herr⟩ ↦ hnot ⟨limit, chain, congrArg (· >>= f) herr⟩]
    rfl

theorem mapM {f g : α → Except FormulaError β} {l : List α} (h : ∀ a ∈ l, Deepens (f a) (g a)) :
    Deepens (l.mapM f) (l.mapM g) := by
  induction l with
  | nil => exact .refl _
  | cons a rest ih =>
    obtain ⟨hfirst, hrest⟩ := List.forall_mem_cons.mp h
    rw [List.mapM_cons, List.mapM_cons]
    exact hfirst.bind fun _ ↦ (ih hrest).bind fun _ ↦ .refl _

theorem bindLeaves {f g : Expr → Except FormulaError Expr} (h : ∀ leaf, Deepens (f leaf) (g leaf))
    (e : Expr) : Deepens (e.bindLeaves f) (e.bindLeaves g) := by
  induction e using Expr.inductLeaves with
  | leaf e hleaf =>
    rw [Expr.bindLeaves_of_isLeaf hleaf, Expr.bindLeaves_of_isLeaf hleaf]
    exact h e
  | binary op left right ihleft ihright =>
    rw [Expr.bindLeaves, Expr.bindLeaves]
    exact ihleft.bind fun _ ↦ ihright.bind fun _ ↦ .refl _
  | negate operand ih =>
    rw [Expr.bindLeaves, Expr.bindLeaves]
    exact ih.bind fun _ ↦ .refl _
  | call name args ih =>
    rw [Expr.bindLeaves, Expr.bindLeaves, Expr.bindLeavesOfAll_eq_mapM,
      Expr.bindLeavesOfAll_eq_mapM]
    exact (Deepens.mapM ih).bind fun _ ↦ .refl _

end Deepens

/-! ## Greater limits -/

section

variable {c : Catalog} {r : Registry} {limit limit' room room' : Nat} {followed : List String}
  {e : Expr} {name : String} {err : FormulaError}

theorem deepens_expandLeaf {openName openName' : String → Except FormulaError Expr}
    (h : ∀ name, Deepens (openName name) (openName' name)) (leaf : Expr) :
    Deepens (expandLeaf c r openName leaf) (expandLeaf c r openName' leaf) := by
  cases leaf with
  | subFormula name => exact h name
  | _ => exact .refl _

theorem exists_expandWithin_eq (c : Catalog) (r : Registry) (limit room : Nat)
    (followed : List String) : ∃ openNew : String → Except FormulaError Expr, ∀ e,
      expandWithin c r limit room followed e = e.bindLeaves (expandLeaf c r fun name ↦
        if name ∈ followed then .error (.cyclicExpansion (cycleTo followed name))
        else openNew name) := by
  cases room with
  | zero => exact ⟨_, fun e ↦ by rw [expandWithin]⟩
  | succ room => exact ⟨_, fun e ↦ by rw [expandWithin]⟩

/-- **More room.** If more names may be followed, an expansion comes to the same result or goes on
where it was cut off. -/
theorem deepens_expandWithin (hroom : room ≤ room') :
    Deepens (expandWithin c r limit room followed e)
      (expandWithin c r limit' room' followed e) := by
  induction room generalizing room' followed e with
  | zero =>
    -- Without room a name is met again or cut off, and the first is so with any room.
    obtain ⟨openNew, hdeeper⟩ := exists_expandWithin_eq c r limit' room' followed
    rw [hdeeper, expandWithin]
    refine .bindLeaves (deepens_expandLeaf fun name ↦ ?_) e
    split_ifs
    · exact .refl _
    · exact .of_isCutOff ⟨_, _, rfl⟩
  | succ room ih =>
    obtain ⟨room', rfl⟩ := Nat.exists_eq_add_of_lt hroom
    rw [expandWithin, expandWithin]
    refine .bindLeaves (deepens_expandLeaf fun name ↦ ?_) e
    split_ifs
    · exact .refl _
    · exact (Deepens.refl _).bind fun _ ↦ ih (by omega)

/-! ## Limits that cut nothing off -/

theorem Catalog.not_isCutOff_body : ¬ IsCutOff (c.body name) := by
  rintro ⟨limit, chain, h⟩
  rcases body_eq_error h with ⟨offset, fault, heq⟩ | ⟨fault, heq⟩ | heq <;> cases heq

theorem Trail.length_le (h : Trail c followed e) : followed.length ≤ c.subFormulas.size := by
  have hle := (h.nodup.subperm h.keys).length_le
  rwa [SortedMap.keys, List.length_map] at hle

/-- If there is room for more names than there are sub-formulas, nothing is cut off. -/
theorem ExpansionFails.ne_expansionTooDeep (h : ExpansionFails c limit room followed e err)
    (htrail : Trail c followed e) (hroom : c.subFormulas.size < room + followed.length)
    (limit' : Nat) (chain : List String) : err ≠ .expansionTooDeep limit' chain := by
  induction h with
  | leaf h =>
    rintro rfl
    cases h
  | cycle => exact FormulaError.noConfusion
  | tooDeep =>
    have hle := htrail.length_le
    omega
  | body _ _ hbody =>
    rintro rfl
    exact c.not_isCutOff_body ⟨limit', chain, hbody⟩
  | inside hname hmet hbody _ ih =>
    refine ih (htrail.follow hname hmet hbody) ?_
    rw [List.length_append, List.length_singleton]
    omega

theorem Trail.not_isCutOff (h : Trail c followed e)
    (hroom : c.subFormulas.size < room + followed.length) :
    ¬ IsCutOff (expandWithin c r limit room followed e) := by
  rintro ⟨limit', chain, herr⟩
  exact (expansionFails_of_expandWithin herr).ne_expansionTooDeep h hroom limit' chain rfl

/-! ## Coming to a cycle -/

/-- An expression can be expanded inside the sub-formulas `followed`, to some depth. -/
def ExpandsWithin (c : Catalog) (r : Registry) (followed : List String) (e : Expr) : Prop :=
  ∃ limit room e', expandWithin c r limit room followed e = .ok e'

/-- The expansion of an expression inside the sub-formulas `followed` comes to a cycle: everything
to the left of a name can be expanded, and the name is one of those that are followed or the
expansion of what it stands for comes to a cycle. -/
inductive MeetsCycle (c : Catalog) (r : Registry) : List String → Expr → List String → Prop where
  | here {followed e before name after} (hleaves : e.leaves = before ++ .subFormula name :: after)
      (hbefore : ∀ leaf ∈ before, ExpandsWithin c r followed leaf) (hmet : name ∈ followed) :
      MeetsCycle c r followed e (cycleTo followed name)
  | inside {followed e before name after body chain}
      (hleaves : e.leaves = before ++ .subFormula name :: after)
      (hbefore : ∀ leaf ∈ before, ExpandsWithin c r followed leaf) (hnew : name ∉ followed)
      (hbody : c.body name = .ok body) (hinside : MeetsCycle c r (followed ++ [name]) body chain) :
      MeetsCycle c r followed e chain

theorem mem_nodes_of_leaves {before after : List Expr} {leaf : Expr}
    (h : e.leaves = before ++ leaf :: after) : leaf ∈ e.nodes ∧ leaf.isLeaf = true := by
  have hmem : leaf ∈ e.leaves := by simp [h]
  exact List.mem_filter.mp hmem

theorem Trail.of_leaf (h : Trail c followed e) {leaf : Expr} (hmem : leaf ∈ e.nodes)
    (hleaf : leaf.isLeaf = true) : Trail c followed leaf where
  nodup := h.nodup
  keys := h.keys
  chain name hname := by
    rw [Expr.nodes_of_isLeaf hleaf, List.mem_singleton] at hname
    exact h.chain name (hname ▸ hmem)

theorem expandWithin_met (h : name ∈ followed) :
    expandWithin c r limit room followed (.subFormula name) =
      .error (.cyclicExpansion (cycleTo followed name)) := by
  obtain ⟨openNew, hpass⟩ := exists_expandWithin_eq c r limit room followed
  rw [hpass, Expr.bindLeaves_of_isLeaf rfl, expandLeaf, if_pos h]

theorem expandWithin_zero (h : name ∉ followed) :
    expandWithin c r limit 0 followed (.subFormula name) =
      .error (.expansionTooDeep limit (followed ++ [name])) := by
  rw [expandWithin, Expr.bindLeaves_of_isLeaf rfl, expandLeaf, if_neg h]

theorem expandWithin_succ (h : name ∉ followed) :
    expandWithin c r limit (room + 1) followed (.subFormula name) =
      c.body name >>= expandWithin c r limit room (followed ++ [name]) := by
  rw [expandWithin, Expr.bindLeaves_of_isLeaf rfl, expandLeaf, if_neg h]

theorem expandWithin_eq_error_iff : expandWithin c r limit room followed e = .error err ↔
    e.leaves.mapM (expandWithin c r limit room followed) = .error err := by
  obtain ⟨openNew, hpass⟩ := exists_expandWithin_eq c r limit room followed
  rw [hpass, Expr.bindLeaves_eq_error_iff]
  refine iff_of_eq (congrArg (· = _) (mapM_congr fun leaf hmem ↦ ?_))
  rw [hpass, Expr.bindLeaves_of_isLeaf (List.mem_filter.mp hmem).2]

theorem exists_eq_subFormula_of_cyclic {leaf : Expr} {chain : List String}
    (hleaf : leaf.isLeaf = true)
    (h : expandWithin c r limit room followed leaf = .error (.cyclicExpansion chain)) :
    ∃ name, leaf = .subFormula name := by
  obtain ⟨openNew, hpass⟩ := exists_expandWithin_eq c r limit room followed
  rw [hpass, Expr.bindLeaves_of_isLeaf hleaf] at h
  rcases expandLeaf_eq_error h with hother | ⟨name, hname, -⟩
  · cases hother
  · exact ⟨name, hname⟩

/-- A cycle is reported at a name to the left of which everything can be expanded: at one that is
met again, or inside a new one. -/
theorem exists_name_of_cyclic {chain : List String}
    (h : expandWithin c r limit room followed e = .error (.cyclicExpansion chain)) :
    ∃ before name after, e.leaves = before ++ .subFormula name :: after ∧
      (∀ leaf ∈ before, ExpandsWithin c r followed leaf) ∧
      (name ∈ followed ∧ chain = cycleTo followed name ∨
        name ∉ followed ∧ expandWithin c r limit room followed (.subFormula name) =
          .error (.cyclicExpansion chain)) := by
  obtain ⟨before, leaf, after, results, hleaves, hbefore, hleaf⟩ :=
    mapM_eq_error_iff.mp (expandWithin_eq_error_iff.mp h)
  obtain ⟨name, rfl⟩ := exists_eq_subFormula_of_cyclic (mem_nodes_of_leaves hleaves).2 hleaf
  refine ⟨before, name, after, hleaves, fun leaf hmem ↦ ?_, ?_⟩
  · obtain ⟨e', -, he'⟩ := exists_eq_ok_of_mapM_eq_ok hbefore hmem
    exact ⟨limit, room, e', he'⟩
  · by_cases hmet : name ∈ followed
    · rw [expandWithin_met hmet] at hleaf
      cases hleaf
      exact .inl ⟨hmet, rfl⟩
    · exact .inr ⟨hmet, hleaf⟩

theorem meetsCycle_of_expandWithin {chain : List String}
    (h : expandWithin c r limit room followed e = .error (.cyclicExpansion chain)) :
    MeetsCycle c r followed e chain := by
  induction room generalizing followed e with
  | zero =>
    obtain ⟨before, name, after, hleaves, hbefore, ⟨hmet, rfl⟩ | ⟨hnew, hname⟩⟩ :=
      exists_name_of_cyclic h
    · exact .here hleaves hbefore hmet
    · rw [expandWithin_zero hnew] at hname
      cases hname
  | succ room ih =>
    obtain ⟨before, name, after, hleaves, hbefore, ⟨hmet, rfl⟩ | ⟨hnew, hname⟩⟩ :=
      exists_name_of_cyclic h
    · exact .here hleaves hbefore hmet
    · rw [expandWithin_succ hnew] at hname
      rcases bind_eq_error.mp hname with hbody | ⟨body, hbody, hinside⟩
      · rcases Catalog.body_eq_error hbody with ⟨_, _, heq⟩ | ⟨_, heq⟩ | heq <;> cases heq
      · exact .inside hleaves hbefore hnew hbody (ih hinside)

theorem ExpandsWithin.exists_eq_ok (h : ExpandsWithin c r followed e) (htrail : Trail c followed e)
    (hroom : c.subFormulas.size < room + followed.length) :
    ∃ e', expandWithin c r limit room followed e = .ok e' := by
  obtain ⟨limit', room', e', hok⟩ := h
  -- Both expansions come to the result that there is with the room of both.
  have hdeep : expandWithin c r limit (room + room') followed e = .ok e' :=
    (deepens_expandWithin (Nat.le_add_left room' room)).eq_ok hok
  have hsame : expandWithin c r limit (room + room') followed e =
      expandWithin c r limit room followed e :=
    deepens_expandWithin (Nat.le_add_right room room') (htrail.not_isCutOff hroom)
  exact ⟨e', hsame.symm.trans hdeep⟩

theorem MeetsCycle.expandWithin_eq {chain : List String} (h : MeetsCycle c r followed e chain)
    (htrail : Trail c followed e) (hroom : c.subFormulas.size < room + followed.length) :
    expandWithin c r limit room followed e = .error (.cyclicExpansion chain) := by
  have hfirst {followed : List String} {e : Expr} {before after : List Expr} {name : String}
      (hleaves : e.leaves = before ++ .subFormula name :: after)
      (hbefore : ∀ leaf ∈ before, ExpandsWithin c r followed leaf) (htrail : Trail c followed e)
      {room : Nat} (hroom : c.subFormulas.size < room + followed.length) {err : FormulaError}
      (hname : expandWithin c r limit room followed (.subFormula name) = .error err) :
      expandWithin c r limit room followed e = .error err := by
    rw [expandWithin_eq_error_iff, mapM_eq_error_iff]
    have hopen : ∀ leaf ∈ before, ∃ e', expandWithin c r limit room followed leaf = .ok e' := by
      intro leaf hmem
      have hleaf := List.mem_filter.mp (show leaf ∈ e.leaves by simp [hleaves, hmem])
      exact (hbefore leaf hmem).exists_eq_ok (htrail.of_leaf hleaf.1 hleaf.2) hroom
    obtain ⟨results, hresults⟩ := exists_mapM_eq_ok_iff.mpr hopen
    exact ⟨before, _, after, results, hleaves, hresults, hname⟩
  induction h generalizing room with
  | here hleaves hbefore hmet => exact hfirst hleaves hbefore htrail hroom (expandWithin_met hmet)
  | @inside followed e before name after body chain hleaves hbefore hnew hbody _ ih =>
    have hname := (mem_nodes_of_leaves hleaves).1
    refine hfirst hleaves hbefore htrail hroom ?_
    have hlt := htrail.length_lt hnew (Catalog.mem_keys_of_body hbody)
    obtain ⟨room, rfl⟩ := Nat.exists_eq_add_of_lt (show 0 < room by omega)
    rw [Nat.zero_add, expandWithin_succ hnew, hbody, ok_bind]
    refine ih (htrail.follow hname hnew hbody) ?_
    rw [List.length_append, List.length_singleton]
    omega

end

/-- **The limit only cuts off.** An expansion that is not cut off at a limit comes to the same
result at every greater one. A limit that is greater than the count of the sub-formulas cuts nothing
off, whatever the catalog and the expression are, and a cycle is then reported exactly if the
expansion comes to it. -/
theorem limit_only_cuts_off (c : Catalog) (r : Registry) (e : Expr) :
    (∀ limit limit', limit ≤ limit' → ¬ IsCutOff (e.expand c r limit) →
        e.expand c r limit' = e.expand c r limit) ∧
      ∀ limit, c.subFormulas.size < limit → ¬ IsCutOff (e.expand c r limit) ∧
        ∀ chain, e.expand c r limit = .error (.cyclicExpansion chain) ↔
          MeetsCycle c r [] e chain := by
  refine ⟨fun limit limit' hle ↦ deepens_expandWithin hle, fun limit hlimit ↦ ?_⟩
  have htrail : Trail c [] e := .start c e
  have hroom : c.subFormulas.size < limit + ([] : List String).length := hlimit
  refine ⟨htrail.not_isCutOff hroom, fun chain ↦ ?_⟩
  constructor
  · intro h
    exact meetsCycle_of_expandWithin h
  · intro h
    exact h.expandWithin_eq htrail hroom

/-- Two sub-formulas that name one another, the second one after a name that opens. -/
private def ring : Catalog :=
  ((({} : Catalog).withSubFormula "EAST" "2 * $WEST").withSubFormula "WEST" "$NORTH - $EAST")
    |>.withSubFormula "NORTH" "1"

/-- At the limit 1 the expansion is cut off. At the limit 3 it is not, and from there on it reports
the cycle. -/
theorem limit_only_cuts_off_ring :
    IsCutOff ((Expr.subFormula "EAST").expand ring ⟨∅⟩ 1) ∧
      (Expr.subFormula "EAST").expand ring ⟨∅⟩ 9 =
        .error (.cyclicExpansion ["EAST", "WEST", "EAST"]) ∧
      ring.subFormulas.size < 4 ∧ ¬ IsCutOff ((Expr.subFormula "EAST").expand ring ⟨∅⟩ 4) ∧
      MeetsCycle ring ⟨∅⟩ [] (.subFormula "EAST") ["EAST", "WEST", "EAST"] := by
  have hcut : (Expr.subFormula "EAST").expand ring ⟨∅⟩ 1 =
      .error (.expansionTooDeep 1 ["EAST", "WEST"]) := by
    decide +kernel
  have hcyclic : (Expr.subFormula "EAST").expand ring ⟨∅⟩ 3 =
      .error (.cyclicExpansion ["EAST", "WEST", "EAST"]) := by
    decide +kernel
  have hnot : ¬ IsCutOff ((Expr.subFormula "EAST").expand ring ⟨∅⟩ 3) := by
    rintro ⟨limit, chain, h⟩
    rw [hcyclic] at h
    cases h
  have hsize : ring.subFormulas.size < 4 := by decide +kernel
  have hgreater (limit : Nat) (hle : 3 ≤ limit) : (Expr.subFormula "EAST").expand ring ⟨∅⟩ limit =
      .error (.cyclicExpansion ["EAST", "WEST", "EAST"]) :=
    ((limit_only_cuts_off ring ⟨∅⟩ (.subFormula "EAST")).1 3 limit hle hnot).trans hcyclic
  obtain ⟨huncut, hreported⟩ := (limit_only_cuts_off ring ⟨∅⟩ (.subFormula "EAST")).2 4 hsize
  exact ⟨⟨_, _, hcut⟩, hgreater 9 (by decide), hsize, huncut,
    (hreported _).mp (hgreater 4 (by decide))⟩

end PlanLedger.Formula
