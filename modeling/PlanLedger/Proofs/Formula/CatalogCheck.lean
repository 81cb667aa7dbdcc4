import Mathlib.Data.List.Perm.Subperm
import PlanLedger.Formula.Expansion
import PlanLedger.Proofs.Formula.CallGraph
import PlanLedger.Proofs.Formula.Leaves

/-!
# The check of a catalog and expansion

A sub-formula opens if its text can be read and everything that the text names opens; this is said
without a depth and without a path. The check of a catalog accepts exactly the catalogs of which all
sub-formulas open, and expansion succeeds only on expressions of which all names open. On a path
that is followed no name occurs twice, so no path is longer than there are sub-formulas, and a
depth of so many names is never used up.
-/

namespace PlanLedger.Formula

/-! ## Opening -/

/-- The text of a sub-formula names another one. -/
def Catalog.Uses (c : Catalog) (a b : String) : Prop :=
  ∃ body, c.body a = .ok body ∧ .subFormula b ∈ body.nodes

/-- A sub-formula can be read, and so can whatever it names, directly or not. -/
inductive Catalog.Opens (c : Catalog) : String → Prop where
  | intro {name : String} {body : Expr} (hbody : c.body name = .ok body)
      (hused : ∀ used, .subFormula used ∈ body.nodes → c.Opens used) : c.Opens name

section

variable {c : Catalog} {name used : String}

theorem Catalog.exists_text_of_body {body : Expr} (h : c.body name = .ok body) :
    ∃ text, c.subFormulas.get? name = some text := by
  rw [Catalog.body] at h
  obtain ⟨text, htext, -⟩ := bind_eq_ok.mp h
  rw [subFormula] at htext
  split at htext
  · exact ⟨_, by assumption⟩
  · cases htext

theorem Catalog.mem_keys_of_body {body : Expr} (h : c.body name = .ok body) :
    name ∈ c.subFormulas.keys :=
  SortedMap.mem_keys_iff.mpr (exists_text_of_body h)

theorem Catalog.Opens.mem_keys (h : c.Opens name) : name ∈ c.subFormulas.keys := by
  obtain ⟨hbody, -⟩ := h
  exact mem_keys_of_body hbody

theorem Catalog.Opens.of_uses (h : c.Opens name) (huses : c.Uses name used) : c.Opens used := by
  obtain ⟨body, hbody, hmem⟩ := huses
  obtain ⟨hbody', hused⟩ := h
  rw [hbody] at hbody'
  exact hused used (Except.ok.inj hbody' ▸ hmem)

theorem Catalog.Opens.acc (h : c.Opens name) : Acc (fun b a ↦ c.Uses a b) name := by
  induction h with
  | intro hbody _ ih =>
    refine .intro _ fun used huses ↦ ?_
    obtain ⟨body', hbody', hmem⟩ := huses
    rw [hbody] at hbody'
    exact ih used (Except.ok.inj hbody' ▸ hmem)

theorem IsCycle.not_opens {chain : List String} (h : IsCycle c.Uses chain) (hname : name ∈ chain) :
    ¬ c.Opens name :=
  fun hopens ↦ h.not_acc hname hopens.acc

end

/-! ## The graph of a catalog -/

theorem Expr.mem_subFormulaNames {e : Expr} {name : String} :
    name ∈ e.subFormulaNames ↔ .subFormula name ∈ e.nodes := by
  rw [subFormulaNames, SortedMap.mem_distinct_iff, List.mem_filterMap]
  constructor
  · rintro ⟨n, hn, hname⟩
    split at hname
    · exact Option.some.inj hname ▸ hn
    · cases hname
  · exact fun h ↦ ⟨_, h, rfl⟩

namespace CallGraph

variable {c : Catalog} {g : CallGraph}

theorem get?_ofCatalog (h : ofCatalog c = .ok g) {name : String} {names : List String} :
    g.get? name = some names ↔
      ∃ body, c.body name = .ok body ∧ body.subFormulaNames = names := by
  rw [ofCatalog] at h
  obtain ⟨uses, huses, h⟩ := bind_eq_ok.mp h
  cases h
  have hread {name : String} {entry : String × List String}
      (h : (do return (name, (← c.body name).subFormulaNames) : Except FormulaError _) =
        .ok entry) : ∃ body, c.body name = .ok body ∧ (name, body.subFormulaNames) = entry := by
    obtain ⟨body, hbody, h⟩ := bind_eq_ok.mp h
    exact ⟨body, hbody, Except.ok.inj h⟩
  have hsound {names : List String} (h : (SortedMap.ofList uses).get? name = some names) :
      ∃ body, c.body name = .ok body ∧ body.subFormulaNames = names := by
    obtain ⟨name', -, hentry⟩ := exists_mem_of_mapM_eq_ok huses (SortedMap.mem_of_get?_ofList h)
    obtain ⟨body, hbody, heq⟩ := hread hentry
    obtain ⟨rfl, hnames⟩ := Prod.mk.inj heq
    exact ⟨body, hbody, hnames⟩
  refine ⟨hsound, ?_⟩
  rintro ⟨body, hbody, rfl⟩
  obtain ⟨entry, hentry, hread'⟩ :=
    exists_eq_ok_of_mapM_eq_ok huses (Catalog.mem_keys_of_body hbody)
  obtain ⟨body₁, -, rfl⟩ := hread hread'
  obtain ⟨names, hnames⟩ := SortedMap.exists_get?_ofList hentry
  -- The text of a sub-formula is read in one way only.
  obtain ⟨body', hbody', rfl⟩ := hsound hnames
  rw [hbody] at hbody'
  exact Except.ok.inj hbody' ▸ hnames

theorem exists_of_ofCatalog_eq_error {err : FormulaError} (h : ofCatalog c = .error err) :
    ∃ name ∈ c.subFormulas.keys, c.body name = .error err := by
  rw [ofCatalog] at h
  rcases bind_eq_error.mp h with h | ⟨uses, -, h⟩
  · obtain ⟨name, hname, h⟩ := mapM_eq_error h
    rcases bind_eq_error.mp h with hbody | ⟨body, -, h⟩
    · exact ⟨name, hname, hbody⟩
    · cases h
  · cases h

theorem exists_ofCatalog_iff :
    (∃ g, ofCatalog c = .ok g) ↔ ∀ name ∈ c.subFormulas.keys, ∃ body, c.body name = .ok body := by
  constructor
  · rintro ⟨g, hg⟩ name hname
    rw [ofCatalog] at hg
    obtain ⟨uses, huses, -⟩ := bind_eq_ok.mp hg
    obtain ⟨entry, -, hentry⟩ := exists_eq_ok_of_mapM_eq_ok huses hname
    obtain ⟨body, hbody, -⟩ := bind_eq_ok.mp hentry
    exact ⟨body, hbody⟩
  · intro hread
    cases hg : ofCatalog c with
    | ok g => exact ⟨g, rfl⟩
    | error err =>
      obtain ⟨name, hname, herr⟩ := exists_of_ofCatalog_eq_error hg
      obtain ⟨body, hbody⟩ := hread name hname
      rw [hbody] at herr
      cases herr

theorem calls_iff (h : ofCatalog c = .ok g) {a b : String} : g.Calls a b ↔ c.Uses a b := by
  rw [Calls, uses, Catalog.Uses]
  constructor
  · intro hb
    cases hnames : g.get? a with
    | none =>
      rw [hnames] at hb
      exact absurd hb List.not_mem_nil
    | some names =>
      obtain ⟨body, hbody, rfl⟩ := (get?_ofCatalog h).mp hnames
      rw [hnames] at hb
      exact ⟨body, hbody, Expr.mem_subFormulaNames.mp hb⟩
  · rintro ⟨body, hbody, hb⟩
    rw [(get?_ofCatalog h).mpr ⟨body, hbody, rfl⟩]
    exact Expr.mem_subFormulaNames.mpr hb

theorem mem_keys_ofCatalog (h : ofCatalog c = .ok g) {name : String} :
    name ∈ g.keys ↔ ∃ body, c.body name = .ok body := by
  rw [SortedMap.mem_keys_iff]
  constructor
  · rintro ⟨names, hnames⟩
    obtain ⟨body, hbody, -⟩ := (get?_ofCatalog h).mp hnames
    exact ⟨body, hbody⟩
  · rintro ⟨body, hbody⟩
    exact ⟨_, (get?_ofCatalog h).mpr ⟨body, hbody, rfl⟩⟩

theorem missing?_eq_none (h : g.missing? = none) {a b : String} (hcalls : g.Calls a b) :
    b ∈ g.keys := by
  rw [missing?, List.find?_eq_none] at h
  rw [Calls, uses] at hcalls
  cases hnames : g.get? a with
  | none =>
    rw [hnames] at hcalls
    exact absurd hcalls List.not_mem_nil
  | some names =>
    rw [hnames] at hcalls
    have hb := h b (List.mem_flatMap.mpr ⟨(a, names), SortedMap.get?_eq_some_iff.mp hnames, hcalls⟩)
    rw [Bool.not_eq_true, Bool.not_eq_false'] at hb
    exact SortedMap.contains_iff.mp hb

theorem exists_of_missing? {b : String} (h : g.missing? = some b) :
    b ∉ g.keys ∧ ∃ a, g.Calls a b := by
  rw [missing?] at h
  have hb := List.find?_some h
  rw [Bool.not_eq_true'] at hb
  obtain ⟨⟨a, names⟩, hentry, hmem⟩ := List.mem_flatMap.mp (List.mem_of_find?_eq_some h)
  refine ⟨fun hkey ↦ ?_, a, ?_⟩
  · rw [SortedMap.contains_iff.mpr hkey] at hb
    cases hb
  · rw [Calls, uses, SortedMap.get?_eq_some_iff.mpr hentry]
    exact hmem

end CallGraph

/-! ## The check -/

/-- All sub-formulas of a catalog that passes the check open. -/
theorem Catalog.opens_of_check {c : Catalog} (h : c.check = .ok ()) {name : String}
    (hname : name ∈ c.subFormulas.keys) : c.Opens name := by
  rw [check] at h
  obtain ⟨g, hg, h⟩ := bind_eq_ok.mp h
  split at h
  · cases h
  · cases h
  · rename_i hmissing hcycle
    have hkey : name ∈ g.keys :=
      (CallGraph.mem_keys_ofCatalog hg).mpr (CallGraph.exists_ofCatalog_iff.mp ⟨g, hg⟩ name hname)
    -- The induction is along what is used, which ends as there is no cycle.
    have hends := CallGraph.ends_of_findCycle? hcycle name
    clear hname
    induction hends with
    | intro name _ ih =>
      obtain ⟨body, hbody⟩ := (CallGraph.mem_keys_ofCatalog hg).mp hkey
      refine .intro hbody fun used hused ↦ ?_
      have hcalls : g.Calls name used := (CallGraph.calls_iff hg).mpr ⟨body, hbody, hused⟩
      exact ih used hcalls (CallGraph.missing?_eq_none hmissing hcalls)

section

variable {c : Catalog} {g : CallGraph}

theorem Catalog.missing?_eq_none_of_opens (hg : CallGraph.ofCatalog c = .ok g)
    (h : ∀ name ∈ c.subFormulas.keys, c.Opens name) : g.missing? = none := by
  refine Option.eq_none_iff_forall_ne_some.mpr fun b hb ↦ ?_
  obtain ⟨hkey, a, hcalls⟩ := CallGraph.exists_of_missing? hb
  obtain ⟨body, hbody, hmem⟩ := (CallGraph.calls_iff hg).mp hcalls
  obtain ⟨hused, -⟩ := (h a (mem_keys_of_body hbody)).of_uses ⟨body, hbody, hmem⟩
  exact hkey ((CallGraph.mem_keys_ofCatalog hg).mpr ⟨_, hused⟩)

theorem Catalog.findCycle?_eq_none_of_opens (hg : CallGraph.ofCatalog c = .ok g)
    (h : ∀ name ∈ c.subFormulas.keys, c.Opens name) : g.findCycle? = none := by
  refine Option.eq_none_iff_forall_ne_some.mpr fun chain hchain ↦ ?_
  have hcycle := CallGraph.isCycle_of_findCycle? hchain
  obtain ⟨a, ha⟩ : ∃ a, a ∈ chain :=
    List.exists_mem_of_length_pos (by have := hcycle.two_le; omega)
  obtain ⟨b, -, hcalls⟩ := hcycle.exists_next ha
  obtain ⟨body, hbody, -⟩ := (CallGraph.calls_iff hg).mp hcalls
  exact (hcycle.imp fun a b ↦ (CallGraph.calls_iff hg).mp).not_opens ha
    (h a (mem_keys_of_body hbody))

/-- **The check of a catalog.** It accepts exactly the catalogs of which all sub-formulas open. -/
theorem Catalog.check_eq_ok_iff :
    c.check = .ok () ↔ ∀ name ∈ c.subFormulas.keys, c.Opens name := by
  constructor
  · exact fun h name hname ↦ opens_of_check h hname
  · intro h
    cases hg : CallGraph.ofCatalog c with
    | error err =>
      obtain ⟨name, hname, hbody⟩ := CallGraph.exists_of_ofCatalog_eq_error hg
      obtain ⟨hbody', -⟩ := h name hname
      rw [hbody] at hbody'
      cases hbody'
    | ok g =>
      rw [check, hg, ok_bind, missing?_eq_none_of_opens hg h, findCycle?_eq_none_of_opens hg h]

end

/-! ## How an expansion fails -/

/-- Whether an error is about opening sub-formulas: reading one, finding one, or following them
without end. -/
def FormulaError.isOpening : FormulaError → Bool
  | parse .. | arity _ | cyclicExpansion _ | expansionTooDeep .. | unknownSubFormula _ => true
  | _ => false

/-- How the expansion of an expression inside the sub-formulas `followed` fails when some more may
be followed: at another leaf than the name of a sub-formula, or at a name or inside what it stands
for. -/
inductive ExpansionFails (c : Catalog) (limit : Nat) :
    Nat → List String → Expr → FormulaError → Prop where
  | leaf {room followed e err} (h : err.isOpening = false) :
      ExpansionFails c limit room followed e err
  | cycle {room followed e name} (hname : .subFormula name ∈ e.nodes) (h : name ∈ followed) :
      ExpansionFails c limit room followed e (.cyclicExpansion (cycleTo followed name))
  | tooDeep {followed e name} (hname : .subFormula name ∈ e.nodes) (h : name ∉ followed) :
      ExpansionFails c limit 0 followed e (.expansionTooDeep limit (followed ++ [name]))
  | body {room followed e name err} (hname : .subFormula name ∈ e.nodes) (h : name ∉ followed)
      (hbody : c.body name = .error err) : ExpansionFails c limit (room + 1) followed e err
  | inside {room followed e name body err} (hname : .subFormula name ∈ e.nodes)
      (h : name ∉ followed) (hbody : c.body name = .ok body)
      (hinside : ExpansionFails c limit room (followed ++ [name]) body err) :
      ExpansionFails c limit (room + 1) followed e err

section

variable {c : Catalog} {r : Registry} {limit room : Nat} {followed : List String} {e : Expr}
  {err : FormulaError}

theorem isOpening_of_ofRegistry {α : Type} {x : Except DimensionError α}
    (h : ofRegistry x = .error err) : err.isOpening = false := by
  cases x with
  | ok a => cases h
  | error fault =>
    cases h
    rfl

theorem isOpening_of_cellExpand {ref : CellRef} (h : ref.expand r = .error err) :
    err.isOpening = false := by
  rw [CellRef.expand] at h
  rcases bind_eq_error.mp h with h | ⟨keyFigure, -, h⟩
  · rw [expandKeyFigure.eq_def] at h
    split at h
    · rcases bind_eq_error.mp h with h | ⟨id, -, h⟩
      · exact isOpening_of_ofRegistry h
      · cases h
    · cases h
      rfl
    · cases h
  · rcases bind_eq_error.mp h with h | ⟨filters, -, h⟩
    · exact isOpening_of_ofRegistry h
    · cases h

/-- A leaf fails to expand by an error that is not about opening, or as the name of a
sub-formula. -/
theorem expandLeaf_eq_error {openName : String → Except FormulaError Expr} {leaf : Expr}
    (h : expandLeaf c r openName leaf = .error err) :
    err.isOpening = false ∨ ∃ name, leaf = .subFormula name ∧ openName name = .error err := by
  rw [expandLeaf.eq_def] at h
  split at h
  · exact .inr ⟨_, rfl, h⟩
  · left
    rcases bind_eq_error.mp h with h | ⟨value, -, h⟩
    · rw [Catalog.constant] at h
      split at h
      · cases h
      · cases h
        rfl
    · cases h
  · left
    rcases bind_eq_error.mp h with h | ⟨ref, -, h⟩
    · exact isOpening_of_cellExpand h
    · cases h
  · left
    rcases bind_eq_error.mp h with h | ⟨data, -, h⟩
    · rw [Catalog.reference] at h
      split at h
      · cases h
      · cases h
        rfl
    · rcases bind_eq_error.mp h with h | ⟨filters, -, h⟩
      · exact isOpening_of_ofRegistry h
      · cases h
  · cases h

theorem expansionFails_of_expandWithin (h : expandWithin c r limit room followed e = .error err) :
    ExpansionFails c limit room followed e err := by
  induction room generalizing followed e with
  | zero =>
    rw [expandWithin] at h
    obtain ⟨leaf, hmem, -, hleaf⟩ := Expr.exists_leaf_of_bindLeaves_eq_error h
    rcases expandLeaf_eq_error hleaf with hother | ⟨name, rfl, hname⟩
    · exact .leaf hother
    · split_ifs at hname with hmet
      · cases hname
        exact .cycle hmem hmet
      · cases hname
        exact .tooDeep hmem hmet
  | succ room ih =>
    rw [expandWithin] at h
    obtain ⟨leaf, hmem, -, hleaf⟩ := Expr.exists_leaf_of_bindLeaves_eq_error h
    rcases expandLeaf_eq_error hleaf with hother | ⟨name, rfl, hname⟩
    · exact .leaf hother
    · split_ifs at hname with hmet
      · cases hname
        exact .cycle hmem hmet
      · rcases bind_eq_error.mp hname with hbody | ⟨body, hbody, hinside⟩
        · exact .body hmem hmet hbody
        · exact .inside hmem hmet hbody (ih hinside)

theorem opens_of_expandWithin {e' : Expr} (h : expandWithin c r limit room followed e = .ok e')
    {name : String} (hname : .subFormula name ∈ e.nodes) : c.Opens name := by
  induction room generalizing followed e e' name with
  | zero =>
    rw [expandWithin] at h
    obtain ⟨e₁, hleaf⟩ := Expr.exists_eq_ok_of_bindLeaves_eq_ok h hname rfl
    rw [expandLeaf] at hleaf
    split_ifs at hleaf
  | succ room ih =>
    rw [expandWithin] at h
    obtain ⟨e₁, hleaf⟩ := Expr.exists_eq_ok_of_bindLeaves_eq_ok h hname rfl
    rw [expandLeaf] at hleaf
    split_ifs at hleaf
    obtain ⟨body, hbody, hinside⟩ := bind_eq_ok.mp hleaf
    exact .intro hbody fun used hused ↦ ih hinside hused

end

/-! ## The names that are followed -/

/-- The names that led to an expression: none occurs twice, all are sub-formulas, and each is named
in the one before it. What the expression names continues them. -/
structure Trail (c : Catalog) (followed : List String) (e : Expr) : Prop where
  nodup : followed.Nodup
  keys : followed ⊆ c.subFormulas.keys
  chain : ∀ name, .subFormula name ∈ e.nodes → (followed ++ [name]).IsChain c.Uses

section

variable {c : Catalog} {followed : List String} {e body : Expr} {name : String}

theorem Trail.start (c : Catalog) (e : Expr) : Trail c [] e where
  nodup := List.nodup_nil
  keys := List.nil_subset _
  chain name _ := List.isChain_singleton name

theorem Trail.nodup_append (h : Trail c followed e) (hname : name ∉ followed) :
    (followed ++ [name]).Nodup :=
  List.nodup_append.mpr ⟨h.nodup, by simp, fun _ ha _ hb heq ↦
    hname (List.mem_singleton.mp hb ▸ heq ▸ ha)⟩

/-- A name that is followed lengthens the trail. -/
theorem Trail.follow (h : Trail c followed e) (hmem : .subFormula name ∈ e.nodes)
    (hname : name ∉ followed) (hbody : c.body name = .ok body) :
    Trail c (followed ++ [name]) body where
  nodup := h.nodup_append hname
  keys := List.append_subset.mpr ⟨h.keys, by simpa using Catalog.mem_keys_of_body hbody⟩
  chain used hused := by
    refine (h.chain name hmem).append (List.isChain_singleton used) ?_
    simpa using ⟨body, hbody, hused⟩

/-- A trail that can go on to a new name is shorter than there are sub-formulas. -/
theorem Trail.length_lt (h : Trail c followed e) (hname : name ∉ followed)
    (hkey : name ∈ c.subFormulas.keys) : followed.length < c.subFormulas.size := by
  have hsub : followed ++ [name] ⊆ c.subFormulas.keys :=
    List.append_subset.mpr ⟨h.keys, by simpa using hkey⟩
  have hle := ((h.nodup_append hname).subperm hsub).length_le
  rw [List.length_append, List.length_singleton, SortedMap.keys, List.length_map] at hle
  exact hle

variable {limit room : Nat} {err : FormulaError}

/-- If all names of an expression open, no failure is about opening but one of depth, and for that
the depth has to be less than the count of sub-formulas. -/
theorem ExpansionFails.isOpening_eq_false_or (h : ExpansionFails c limit room followed e err)
    (htrail : Trail c followed e) (hopens : ∀ name, .subFormula name ∈ e.nodes → c.Opens name) :
    err.isOpening = false ∨ (∃ path, err = .expansionTooDeep limit path) ∧
      room + followed.length < c.subFormulas.size := by
  induction h with
  | leaf h => exact .inl h
  | @cycle room followed e name hname hmet =>
    have hcycle : IsCycle c.Uses (cycleTo followed name) :=
      isCycle_of_mem hmet htrail.nodup (htrail.chain name hname)
    exact absurd (hopens name hname) (hcycle.not_opens (by simp [cycleTo]))
  | tooDeep hname hmet =>
    have hlt := htrail.length_lt hmet (hopens _ hname).mem_keys
    exact .inr ⟨⟨_, rfl⟩, by omega⟩
  | body hname hmet hbody =>
    obtain ⟨hbody', -⟩ := hopens _ hname
    rw [hbody] at hbody'
    cases hbody'
  | inside hname hmet hbody _ ih =>
    refine (ih (htrail.follow hname hmet hbody) fun used hused ↦ ?_).imp_right ?_
    · exact (hopens _ hname).of_uses ⟨_, hbody, hused⟩
    · rintro ⟨hdeep, hlt⟩
      rw [List.length_append, List.length_singleton] at hlt
      exact ⟨hdeep, by omega⟩

/-- If all names of an expression open and the depth is not less than the count of sub-formulas,
no failure is about opening. -/
theorem ExpansionFails.isOpening_eq_false (h : ExpansionFails c limit room followed e err)
    (htrail : Trail c followed e) (hopens : ∀ name, .subFormula name ∈ e.nodes → c.Opens name)
    (hroom : c.subFormulas.size ≤ room + followed.length) : err.isOpening = false :=
  (h.isOpening_eq_false_or htrail hopens).resolve_right fun hdeep ↦ absurd hdeep.2 (by omega)

/-- In a catalog that passes the check no expansion reports a cycle or a name that is missing, at
any depth. -/
theorem Catalog.error_of_check (hcheck : c.check = .ok ()) {r : Registry}
    (hnames : ∀ name, .subFormula name ∈ e.nodes → name ∈ c.subFormulas.keys)
    (h : e.expand c r limit = .error err) :
    (∀ chain, err ≠ .cyclicExpansion chain) ∧ ∀ name, err ≠ .unknownSubFormula name := by
  have hopens (name : String) (hname : .subFormula name ∈ e.nodes) : c.Opens name :=
    opens_of_check hcheck (hnames name hname)
  rcases (expansionFails_of_expandWithin h).isOpening_eq_false_or (.start c e) hopens with
    hother | ⟨⟨path, rfl⟩, -⟩
  · constructor
    · rintro chain rfl
      cases hother
    · rintro name rfl
      cases hother
  · exact ⟨nofun, nofun⟩

theorem Catalog.body_eq_error (h : c.body name = .error err) :
    (∃ offset fault, err = .parse offset (some name) fault) ∨ (∃ fault, err = .arity fault) ∨
      err = .unknownSubFormula name := by
  rw [body] at h
  rcases bind_eq_error.mp h with h | ⟨text, -, h⟩
  · rw [subFormula] at h
    split at h
    · cases h
    · cases h
      exact .inr (.inr rfl)
  · rw [readWith] at h
    dsimp only at h
    split at h
    · cases h
    · rename_i fault _
      cases h
      cases fault with
      | fault offset f => exact .inl ⟨_, f, rfl⟩
      | arity f => exact .inr (.inl ⟨f, rfl⟩)

theorem ExpansionFails.isCycle {chain : List String}
    (h : ExpansionFails c limit room followed e (.cyclicExpansion chain))
    (htrail : Trail c followed e) : IsCycle c.Uses chain := by
  generalize herr : FormulaError.cyclicExpansion chain = err at h
  induction h with
  | leaf h =>
    subst herr
    cases h
  | cycle hname hmet =>
    cases herr
    exact isCycle_of_mem hmet htrail.nodup (htrail.chain _ hname)
  | tooDeep => cases herr
  | body _ _ hbody =>
    subst herr
    rcases Catalog.body_eq_error hbody with ⟨_, _, heq⟩ | ⟨_, heq⟩ | heq <;> cases heq
  | inside hname hmet hbody _ ih => exact ih (htrail.follow hname hmet hbody) herr

end

/-! ## Agreement -/

/-- **The check of a catalog and expansion agree.** In a catalog that passes the check, an
expression that names only sub-formulas of the catalog never fails to expand for a reason that has
to do with sub-formulas, if the depth is not less than their count. A catalog that fails the check
has a sub-formula that cannot be expanded at any depth. A cycle that expansion reports is a cycle
of the catalog. -/
theorem check_agrees_with_expand (c : Catalog) :
    (c.check = .ok () → ∀ (e : Expr) (r : Registry) (limit : Nat),
        (∀ name, .subFormula name ∈ e.nodes → name ∈ c.subFormulas.keys) →
        c.subFormulas.size ≤ limit →
        ∀ err, e.expand c r limit = .error err → err.isOpening = false) ∧
      (∀ err, c.check = .error err → ∃ name ∈ c.subFormulas.keys, ∀ (r : Registry) (limit : Nat),
        ∃ err', (Expr.subFormula name).expand c r limit = .error err') ∧
      ∀ (e : Expr) (r : Registry) (limit : Nat) (chain : List String),
        e.expand c r limit = .error (.cyclicExpansion chain) → IsCycle c.Uses chain := by
  refine ⟨fun hcheck e r limit hnames hlimit err h ↦ ?_, fun err hcheck ↦ ?_,
    fun e r limit chain h ↦ ?_⟩
  · refine (expansionFails_of_expandWithin h).isOpening_eq_false (.start c e) (fun name hname ↦ ?_)
      (Nat.le_add_right_of_le hlimit)
    exact Catalog.check_eq_ok_iff.mp hcheck name (hnames name hname)
  · have hnot : ¬ ∀ name ∈ c.subFormulas.keys, c.Opens name := by
      intro hopens
      rw [Catalog.check_eq_ok_iff.mpr hopens] at hcheck
      cases hcheck
    obtain ⟨name, hname, hnot⟩ : ∃ name ∈ c.subFormulas.keys, ¬ c.Opens name := by
      simpa using hnot
    refine ⟨name, hname, fun r limit ↦ ?_⟩
    cases hexpand : (Expr.subFormula name).expand c r limit with
    | error err' => exact ⟨err', rfl⟩
    | ok e' => exact absurd (opens_of_expandWithin hexpand (by simp [Expr.nodes])) hnot
  · exact (expansionFails_of_expandWithin h).isCycle (.start c e)

/-- Two sub-formulas, one of which names the other one. -/
private def inOrder : Catalog :=
  (({} : Catalog).withSubFormula "BASE" "2").withSubFormula "TAX" "$BASE"

private theorem check_inOrder : inOrder.check = .ok () := by
  have hbaseBody : inOrder.body "BASE" = .ok (.number ⟨false, 2, 0, by decide, by decide⟩) := by
    decide +kernel
  have htaxBody : inOrder.body "TAX" = .ok (.subFormula "BASE") := by decide +kernel
  have hbase : inOrder.Opens "BASE" :=
    .intro hbaseBody fun used hused ↦ by simp [Expr.nodes] at hused
  have htax : inOrder.Opens "TAX" := by
    refine .intro htaxBody fun used hused ↦ ?_
    obtain rfl : used = "BASE" := by simpa [Expr.nodes] using hused
    exact hbase
  have hkeys : inOrder.subFormulas.keys = ["BASE", "TAX"] := by decide +kernel
  refine Catalog.check_eq_ok_iff.mpr ?_
  rw [hkeys]
  simp [hbase, htax]

private def inRound : Catalog :=
  (({} : Catalog).withSubFormula "LEFT" "$RIGHT").withSubFormula "RIGHT" "-$LEFT"

private theorem check_inRound :
    inRound.check = .error (.cyclicExpansion ["LEFT", "RIGHT", "LEFT"]) := by
  let g : CallGraph := .ofList [("LEFT", ["RIGHT"]), ("RIGHT", ["LEFT"])]
  have hgraph : CallGraph.ofCatalog inRound = .ok g := by decide +kernel
  have hmissing : g.missing? = none := by decide +kernel
  have hkeys : g.keys = ["LEFT", "RIGHT"] := by decide +kernel
  have hleft : g.get? "LEFT" = some ["RIGHT"] := by decide +kernel
  have hright : g.get? "RIGHT" = some ["LEFT"] := by decide +kernel
  have hcycle : g.findCycle? = some ["LEFT", "RIGHT", "LEFT"] := by
    rw [CallGraph.findCycle?, hkeys, CallGraph.followAll,
      CallGraph.follow_of_get?_eq_some (by decide) (by decide) hleft, CallGraph.followAll,
      CallGraph.follow_of_get?_eq_some (by decide) (by decide) hright, CallGraph.followAll,
      CallGraph.follow_of_mem (by decide)]
    rfl
  rw [Catalog.check, hgraph, ok_bind, hmissing, hcycle]

/-- In a catalog that passes the check only a constant can be missing, at a depth that is just the
count of sub-formulas. In a round of two names the check finds what expansion reports. -/
theorem check_agrees_with_expand_inRound :
    inOrder.check = .ok () ∧
      FormulaError.isOpening (.unknownConstant "RATE") = false ∧
      inRound.check = .error (.cyclicExpansion ["LEFT", "RIGHT", "LEFT"]) ∧
      (∃ name ∈ inRound.subFormulas.keys, ∀ (r : Registry) (limit : Nat),
        ∃ err, (Expr.subFormula name).expand inRound r limit = .error err) ∧
      IsCycle inRound.Uses ["RIGHT", "LEFT", "RIGHT"] := by
  have hmissing : (Expr.binary (.arithmetic .add) (.subFormula "TAX") (.constant "RATE")).expand
      inOrder ⟨∅⟩ 2 = .error (.unknownConstant "RATE") := by
    decide +kernel
  have hnames : ∀ name, .subFormula name ∈ (Expr.binary (.arithmetic .add) (.subFormula "TAX")
      (.constant "RATE")).nodes → name ∈ inOrder.subFormulas.keys := by
    intro name hname
    have htax : name = "TAX" := by simpa [Expr.nodes] using hname
    subst htax
    decide +kernel
  have hcycle : (Expr.subFormula "RIGHT").expand inRound ⟨∅⟩ 2 =
      .error (.cyclicExpansion ["RIGHT", "LEFT", "RIGHT"]) := by
    decide +kernel
  exact ⟨check_inOrder,
    (check_agrees_with_expand inOrder).1 check_inOrder _ _ 2 hnames (by decide +kernel) _ hmissing,
    check_inRound, (check_agrees_with_expand inRound).2.1 _ check_inRound,
    (check_agrees_with_expand inRound).2.2 _ _ _ _ hcycle⟩

end PlanLedger.Formula
