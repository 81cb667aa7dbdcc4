import PlanLedger.Planning.Run
import PlanLedger.Proofs.Formula.Faults

/-!
# Combinations of compiled formulas

The loop dimensions of a compiled formula are known to the registry, so their values can be listed,
and every combination has one of them on each loop dimension. Since a formula compiles only if it
asks for the value of the current combination on loop dimensions only, every combination has all
values that the formula asks for.
-/

namespace PlanLedger

open Formula (Bindings)

/-! ## Values of combinations -/

namespace Registry

variable {r : Registry}

/-- The registry has a master list of a dimension. -/
def Knows (r : Registry) (d : Dimension) : Prop := ∃ m, r.list d = .ok m

/-- Everything that a combination has on a dimension is a value of it. -/
def Choice (r : Registry) (b : Bindings) : Prop :=
  ∀ d id, b.get? d = some id → ∃ ids, r.ids d = .ok ids ∧ id ∈ ids

theorem choice_empty (r : Registry) : r.Choice ∅ := by
  intro d id h
  cases h

theorem Choice.insert {b : Bindings} (h : r.Choice b) {d : Dimension} {ids : List DimId}
    (hids : r.ids d = .ok ids) {id : DimId} (hid : id ∈ ids) : r.Choice (b.insert d id) := by
  intro d' id' h'
  rw [SortedMap.get?_insert] at h'
  split_ifs at h' with hd
  · cases h'
    exact ⟨ids, hd ▸ hids, hid⟩
  · exact h d' id' h'

theorem knows_of_contains {d : Dimension} (h : r.lists.contains d = true) : r.Knows d := by
  obtain ⟨m, hm⟩ := Option.isSome_iff_exists.mp h
  exact ⟨m, by rw [list, hm]⟩

theorem ids_of_list {d : Dimension} {m : MasterList} (h : r.list d = .ok m) :
    r.ids d = .ok m.ids := by
  rw [ids, h]
  rfl

theorem Knows.exists_ids {d : Dimension} (h : r.Knows d) : ∃ ids, r.ids d = .ok ids := by
  obtain ⟨m, hm⟩ := h
  exact ⟨m.ids, ids_of_list hm⟩

theorem exists_combinationsFrom {dims : List Dimension} (h : ∀ d ∈ dims, r.Knows d)
    (bs : List Bindings) : ∃ bs', r.combinationsFrom bs dims = .ok bs' := by
  induction dims generalizing bs with
  | nil => exact ⟨bs, rfl⟩
  | cons d rest ih =>
    obtain ⟨hd, hrest⟩ := List.forall_mem_cons.mp h
    obtain ⟨ids, hids⟩ := hd.exists_ids
    rw [combinationsFrom, hids, ok_bind]
    exact ih hrest _

theorem mem_extendBindings {b b' : Bindings} {d : Dimension} {ids : List DimId} :
    b' ∈ extendBindings b d ids ↔ ∃ id ∈ ids, b.insert d id = b' :=
  List.mem_map

/-- A combination extends one of those that it was made from, has a value on every dimension that
was added, and has values of its dimensions only. -/
theorem of_mem_combinationsFrom {dims : List Dimension} {bs bs' : List Bindings}
    (h : r.combinationsFrom bs dims = .ok bs') {b' : Bindings} (hb' : b' ∈ bs') :
    ∃ b ∈ bs, (r.Choice b → r.Choice b') ∧
      ∀ d, d ∈ dims ∨ (∃ id, b.get? d = some id) → ∃ id, b'.get? d = some id := by
  induction dims generalizing bs with
  | nil =>
    cases h
    exact ⟨b', hb', id, fun d hd ↦ hd.resolve_left List.not_mem_nil⟩
  | cons d rest ih =>
    rw [combinationsFrom] at h
    obtain ⟨ids, hids, h⟩ := bind_eq_ok.mp h
    obtain ⟨b₁, hb₁, hchoice, hvalues⟩ := ih h
    obtain ⟨b, hb, hext⟩ := List.mem_flatMap.mp hb₁
    obtain ⟨id, hid, rfl⟩ := mem_extendBindings.mp hext
    refine ⟨b, hb, fun hchoice' ↦ hchoice (hchoice'.insert hids hid), fun d' hd' ↦ ?_⟩
    by_cases heq : d' = d
    · subst heq
      exact hvalues d' (.inr ⟨id, SortedMap.get?_insert_self _ _ _⟩)
    · rw [List.mem_cons, or_assoc] at hd'
      refine hvalues d' ((hd'.resolve_left heq).imp_right fun hvalue ↦ ?_)
      rwa [SortedMap.get?_insert_of_ne _ _ heq]

/-- A combination has a value of each dimension, and values of its dimensions only. -/
theorem of_mem_combinations {dims : List Dimension} {bs : List Bindings}
    (h : r.combinations dims = .ok bs) {b : Bindings} (hb : b ∈ bs) :
    r.Choice b ∧ ∀ d ∈ dims, ∃ id, b.get? d = some id := by
  obtain ⟨start, hstart, hchoice, hvalues⟩ := of_mem_combinationsFrom h hb
  rw [List.mem_singleton.mp hstart] at hchoice
  exact ⟨hchoice r.choice_empty, fun d hd ↦ hvalues d (.inl hd)⟩

end Registry

/-! ## Compiled formulas -/

namespace Engine

variable {e : Engine} {f : PlanFormula} {compiled : CompiledFormula}

theorem knows_of_addLoop {loops loops' : List Dimension} {name : String}
    (h : e.addLoop loops name = .ok loops') (hloops : ∀ d ∈ loops, e.registry.Knows d) :
    ∀ d ∈ loops', e.registry.Knows d := by
  rw [addLoop] at h
  obtain ⟨d, hd, h⟩ := bind_eq_ok.mp h
  have hknown : e.registry.lists.contains d = true := by
    rw [Registry.dimension] at hd
    split_ifs at hd with hcontains
    · cases hd
      exact hcontains
    · cases hd
  split_ifs at h
  cases h
  intro d' hd'
  rcases List.mem_append.mp hd' with hd' | hd'
  · exact hloops d' hd'
  · rw [List.mem_singleton.mp hd']
    exact Registry.knows_of_contains hknown

/-- What is known of a compiled formula: how it was made, and that it asks for values of the current
combination on loop dimensions only. -/
structure Compiles (e : Engine) (f : PlanFormula) (compiled : CompiledFormula) : Prop where
  read : ∃ statement, Formula.Statement.ofText f.text = .ok statement ∧
    statement.expand e.catalog e.registry e.options.maxExpansionDepth = .ok compiled.statement
  loops : f.loopNames.foldlM e.addLoop [] = .ok compiled.loops
  used : ∀ d ∈ Formula.loopDimensions
    (compiled.statement.expr.filters ++ compiled.statement.target.filters), d ∈ compiled.loops
  hasReferences : compiled.hasReferences = compiled.statement.expr.hasReferences

theorem compile_eq_ok (h : e.compile f = .ok compiled) : e.Compiles f compiled := by
  rw [compile] at h
  obtain ⟨statement, hread, h⟩ := bind_eq_ok.mp h
  obtain ⟨expanded, hexpand, h⟩ := bind_eq_ok.mp h
  obtain ⟨loops, hloops, h⟩ := bind_eq_ok.mp h
  dsimp only at h
  split at h
  · cases h
  · rename_i hnone
    cases h
    refine ⟨⟨statement, PlanningError.ofFormula_eq_ok.mp hread,
      PlanningError.ofFormula_eq_ok.mp hexpand⟩, hloops, fun d hd ↦ ?_, rfl⟩
    simpa using List.find?_eq_none.mp hnone d hd

namespace Compiles

variable (h : e.Compiles f compiled)

include h

theorem isExpanded : compiled.statement.target.IsResolved e.registry ∧
    compiled.statement.expr.IsExpanded e.catalog e.registry := by
  obtain ⟨statement, hread, hexpand⟩ := h.read
  exact Formula.isExpanded_of_statement hread hexpand

theorem knows_loops : ∀ d ∈ compiled.loops, e.registry.Knows d :=
  of_foldlM_eq_ok h.loops (by simp) fun _ _ _ _ hloops hadd ↦ knows_of_addLoop hadd hloops

theorem exists_combinations : ∃ bs, e.registry.combinations compiled.loops = .ok bs :=
  Registry.exists_combinationsFrom h.knows_loops _

theorem binds {bs : List Bindings} (hbs : e.registry.combinations compiled.loops = .ok bs)
    {b : Bindings} (hb : b ∈ bs) : Formula.Binds b
      (compiled.statement.expr.filters ++ compiled.statement.target.filters) := by
  intro f hf hloop
  have hused : f.dimension ∈ compiled.loops :=
    h.used f.dimension (Formula.mem_loopDimensions.mpr ⟨f, hf, hloop, rfl⟩)
  exact (Registry.of_mem_combinations hbs hb).2 f.dimension hused

end Compiles

/-! ## Prepared runs -/

variable {request : RunRequest} {p : RunPlan}

/-- What is known of a run that is prepared. -/
structure Plans (e : Engine) (f : PlanFormula) (request : RunRequest) (p : RunPlan) : Prop where
  compiles : e.Compiles f p.compiled
  session_id : p.frame.sessionId = request.session
  session : e.store.session request.session = .ok p.frame.session
  period : e.resolveOption .period request.period = .ok p.frame.period
  combinations : e.registry.combinations p.compiled.loops = .ok p.combinations

theorem plan_eq_ok (h : e.plan f request = .ok p) : e.Plans f request p := by
  rw [plan] at h
  obtain ⟨_, -, h⟩ := bind_eq_ok.mp h
  obtain ⟨compiled, hcompiled, h⟩ := bind_eq_ok.mp h
  obtain ⟨session, hsession, h⟩ := bind_eq_ok.mp h
  obtain ⟨period, hperiod, h⟩ := bind_eq_ok.mp h
  obtain ⟨combinations, hcombinations, h⟩ := bind_eq_ok.mp h
  cases h
  exact ⟨compile_eq_ok hcompiled, rfl, PlanningError.ofStore_eq_ok.mp hsession, hperiod,
    PlanningError.ofRegistry_eq_ok.mp hcombinations⟩

theorem compile_eq_of_plan (h : e.plan f request = .ok p) : e.compile f = .ok p.compiled := by
  rw [plan] at h
  obtain ⟨_, -, h⟩ := bind_eq_ok.mp h
  obtain ⟨compiled, hcompiled, h⟩ := bind_eq_ok.mp h
  obtain ⟨session, -, h⟩ := bind_eq_ok.mp h
  obtain ⟨period, -, h⟩ := bind_eq_ok.mp h
  obtain ⟨combinations, -, h⟩ := bind_eq_ok.mp h
  cases h
  exact hcompiled

end Engine

end PlanLedger
