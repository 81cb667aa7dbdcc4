import PlanLedger.Formula.ReferenceValue
import PlanLedger.Planning.Work

/-!
# Distributing totals

The current facts of a session on the key figure of a source of reference data are put into groups
by their values on some dimensions. The facts of a group are rescaled so that they add up to the
value of the source for the group. What rounding leaves over goes to the fact with the largest
share.
-/

namespace PlanLedger

open PlanningError (ofFormula ofRegistry)

/-- The values of a group on the dimensions that its facts have of those asked for. -/
abbrev GroupKey := List (Dimension × DimId)

instance : Ord GroupKey := ⟨List.compareLex (compareBoth Prod.fst Prod.snd)⟩

instance : Std.TransOrd GroupKey :=
  inferInstanceAs (Std.TransCmp (List.compareLex (compareBoth Prod.fst Prod.snd)))

def groupOf (dims : List Dimension) (c : Cell) : GroupKey :=
  dims.filterMap fun d ↦ (c.get? d).map fun id ↦ (d, id)

/-- The facts of each group, in the order of the facts. -/
def groupFacts (dims : List Dimension) (facts : List Fact) : SortedMap GroupKey (List Fact) :=
  facts.foldl
    (fun groups fact ↦
      let group := groupOf dims fact.cell
      groups.insert group (((groups.get? group).getD []) ++ [fact]))
    ∅

/-- The sum of numbers, from the first to the last. -/
def sum? (values : List Decimal) : Option Decimal := values.foldlM Decimal.add? .zero

/-- The share of a value in a total when the values add up to `base`. -/
def share? (value total base : Decimal) (places : Nat) : Option Decimal := do
  let product ← value.mul? total
  let share ← product.div? base
  return share.toPlaces places

/-! ## What rounding leaves over -/

/-- The place of the number with the largest absolute value, the last of several; `best` is such a
place and number among those before place `i`. -/
def lastLargest (best : Nat × Decimal) (i : Nat) : List Decimal → Nat × Decimal
  | [] => best
  | d :: rest => lastLargest (if d.abs.below best.2.abs then best else (i, d)) (i + 1) rest

/-- What is missing from shares to a total. -/
def residue? (shares : List Decimal) (total : Decimal) : Option Decimal := do
  total.sub? (← sum? shares)

/-- Adds what is missing from shares to a total to the largest of them, the last of several. Where
that cannot be calculated the shares stay as they are. -/
def settle (shares : List Decimal) (total : Decimal) : List Decimal :=
  match shares, residue? shares total with
  | first :: rest, some residue =>
    if residue.isZero then shares
    else
      let (i, largest) := lastLargest (0, first) 1 rest
      match largest.add? residue with
      | some adjusted => shares.set i adjusted
      | none => shares
  | _, _ => shares

/-! ## Groups -/

/-- The look-up of the total of a group. -/
def groupCall (reference : String) (group : GroupKey) : Formula.ReferenceCall :=
  { name := reference, filters := group.map fun p ↦ ⟨p.1, .id p.2⟩ }

def giveShare (x : WorkContext) (p : Fact × Decimal) : Working Tally :=
  x.change p.1 fun values ↦ { values with value := p.2 }

/-- Rescales the facts of a group to a total that is not zero, where their values add up to `base`,
which is not zero either. A fact whose share cannot be calculated is reported, and then nothing is
settled. -/
def rescaleGroup (x : WorkContext) (total base : Decimal) (facts : List Fact) : Working Tally := do
  let shares := facts.map fun fact ↦ (fact, share? fact.value total base x.scale)
  let given := shares.filterMap fun p ↦ p.2.map fun share ↦ (p.1, share)
  let failed := (shares.filter fun p ↦ p.2.isNone).map (·.1)
  let given :=
    if failed.isEmpty then
      (given.map (·.1)).zip (settle (given.map (·.2)) (total.toPlaces x.scale))
    else given
  return (x.rejected failed .rescaleOverflow).add (← tallyOver (giveShare x) given)

/-- Rescales the facts of a group to the value of the reference data for it, as the store is when
the group's turn comes. A group without a total or without a base stays as it is. -/
def distributeGroup (x : WorkContext) (reference : String) (group : GroupKey × List Fact) :
    Working Tally := do
  let references : Formula.ReferenceContext :=
    { store := ← Working.store, registry := x.registry, catalog := x.catalog }
  let total ← ofFormula (references.value ∅ (groupCall reference group.1))
  match sum? (group.2.map Fact.value) with
  | none => return x.rejected group.2 .groupSumOverflow
  | some base =>
    if total.isZero || base.isZero then return {} else rescaleGroup x total base group.2

/-- Rescales the facts of a session, group by group, to the values of reference data. -/
def distribute (x : WorkContext) (groupBy : List String) (reference : String) :
    Working Tally := do
  let data ← ofFormula (x.catalog.reference reference)
  let keyFigure ← ofRegistry (x.registry.resolve .keyFigure data.keyFigure)
  let dims ← groupBy.mapM fun name ↦ ofRegistry (x.registry.dimension name)
  let facts := (← Working.store).currentOf keyFigure ∅ x.scope
  tallyOver (distributeGroup x reference) (groupFacts dims facts).toList

end PlanLedger
