import PlanLedger.Formula.Catalog

/-!
# Which sub-formulas use which

The sub-formulas of a catalog and the names that each uses form a graph. A catalog is in order if
all its sub-formulas can be read, use only names that exist, and do not use themselves in a round.
-/

namespace PlanLedger.Formula

/-- The names that each sub-formula uses, each list in order and without repetition. -/
abbrev CallGraph := SortedMap String (List String)

namespace CallGraph

/-- The graph of a catalog, or the fault of the first sub-formula that cannot be read. -/
def ofCatalog (c : Catalog) : Except FormulaError CallGraph := do
  let uses ← c.subFormulas.keys.mapM fun name ↦ do
    return (name, (← c.body name).subFormulaNames)
  return .ofList uses

def uses (g : CallGraph) (name : String) : List String := (g.get? name).getD []

/-! ## Cycles

Names are followed depth first. A name met again on the path to it closes a cycle; a name that has
been left before is not followed again. -/

/-- The count of sub-formulas that are not on a path. -/
def countOff (g : CallGraph) (path : List String) : Nat :=
  (g.keys.filter fun name ↦ !path.contains name).length

theorem mem_keys_of_lookup {name : String} {names : List String}
    {l : List (String × List String)} (h : SortedMap.lookup name l = some names) :
    name ∈ l.map (·.1) := by
  induction l with
  | nil => simp [SortedMap.lookup] at h
  | cons e rest ih =>
    rw [SortedMap.lookup] at h
    split at h
    · rename_i hk
      simp [Std.LawfulEqCmp.eq_of_compare hk]
    · exact List.mem_cons_of_mem _ (ih h)

/-- A stronger test that rules out a member of a list keeps fewer members. -/
theorem length_filter_lt {p q : String → Bool} (hqp : ∀ n, q n → p n) {name : String}
    (hp : p name) (hq : ¬q name) {l : List String} (hl : name ∈ l) :
    (l.filter q).length < (l.filter p).length := by
  have hle : ∀ l : List String, (l.filter q).length ≤ (l.filter p).length := fun l ↦ by
    rw [← List.countP_eq_length_filter, ← List.countP_eq_length_filter]
    exact List.countP_mono_left fun n _ ↦ hqp n
  induction l with
  | nil => simp at hl
  | cons a l ih =>
    rcases List.mem_cons.1 hl with rfl | hl
    · have := hle l
      rw [List.filter_cons_of_neg hq, List.filter_cons_of_pos hp, List.length_cons]
      omega
    · have := ih hl
      by_cases ha : q a
      · rw [List.filter_cons_of_pos ha, List.filter_cons_of_pos (hqp a ha)]
        simpa using this
      · rw [List.filter_cons_of_neg ha]
        by_cases hb : p a
        · rw [List.filter_cons_of_pos hb, List.length_cons]
          omega
        · rwa [List.filter_cons_of_neg hb]

theorem countOff_lt {g : CallGraph} {path names : List String} {name : String}
    (hg : g.get? name = some names) (hp : name ∉ path) :
    g.countOff (path ++ [name]) < g.countOff path :=
  length_filter_lt (fun n ↦ by simp; grind) (by simpa using hp) (by simp)
    (mem_keys_of_lookup hg)

mutual

/-- Follows a name, and gives the names that have been left. The names `left` have been left
before; a cycle ends the search. -/
def follow (g : CallGraph) (path left : List String) (name : String) :
    Except (List String) (List String) :=
  if _hp : name ∈ path then .error (path.dropWhile (· != name) ++ [name])
  else if name ∈ left then .ok left
  else match _h : g.get? name with
    | none => .ok (name :: left)
    | some names => do
      let left ← followAll g (path ++ [name]) left names
      return name :: left
termination_by (g.countOff path, 0)
decreasing_by exact Prod.Lex.left _ _ (countOff_lt _h _hp)

def followAll (g : CallGraph) (path left : List String) :
    List String → Except (List String) (List String)
  | [] => .ok left
  | name :: rest => do
    let left ← follow g path left name
    followAll g path left rest
termination_by names => (g.countOff path, names.length + 1)
decreasing_by
  · exact Prod.Lex.right _ (by simp)
  · exact Prod.Lex.right _ (by simp)

end

/-- The first cycle found, as the names from one back to it. -/
def findCycle? (g : CallGraph) : Option (List String) :=
  match followAll g [] [] g.keys with
  | .ok _ => none
  | .error chain => some chain

/-- The first name that is used and does not exist. -/
def missing? (g : CallGraph) : Option String :=
  (g.toList.flatMap (·.2)).find? fun name ↦ !g.contains name

end CallGraph

/-- Checks that all sub-formulas can be read, use only names that exist and have no cycle. -/
def Catalog.check (c : Catalog) : Except FormulaError Unit := do
  let g ← CallGraph.ofCatalog c
  match g.missing?, g.findCycle? with
  | some name, _ => .error (.unknownSubFormula name)
  | none, some chain => .error (.cyclicExpansion chain)
  | none, none => .ok ()

end PlanLedger.Formula
