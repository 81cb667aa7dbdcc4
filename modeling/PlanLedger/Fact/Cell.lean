import PlanLedger.Dimension.Basic

/-!
# Cells

A cell is the place of a fact: a session and one value for each dimension, where some dimensions
may be left open. The batch in which a fact was written and its cell together are the key of the
fact. Cells and keys are ordered by their parts.
-/

namespace PlanLedger

abbrev SessionId := Nat

abbrev BatchId := Nat

abbrev FactId := Nat

/-- The place of a fact among the dimensions. -/
structure Cell where
  session : SessionId
  version : DimId
  year : DimId
  period : DimId
  orgUnit : DimId
  service : Option DimId := none
  account : Option DimId := none
  keyFigure : DimId
  /-- The values of the extra dimensions. -/
  extra : SortedMap String DimId := ∅
deriving DecidableEq

namespace Cell

/-- The value of a cell on a dimension, if it has one. -/
def get? (c : Cell) : Dimension → Option DimId
  | .orgUnit => some c.orgUnit
  | .service => c.service
  | .period => some c.period
  | .year => some c.year
  | .version => some c.version
  | .account => c.account
  | .keyFigure => some c.keyFigure
  | .extra name => c.extra.get? name

/-- The cell with a value put on a dimension. -/
def set (c : Cell) (d : Dimension) (v : DimId) : Cell :=
  match d with
  | .orgUnit => { c with orgUnit := v }
  | .service => { c with service := some v }
  | .period => { c with period := v }
  | .year => { c with year := v }
  | .version => { c with version := v }
  | .account => { c with account := some v }
  | .keyFigure => { c with keyFigure := v }
  | .extra name => { c with extra := c.extra.insert name v }

/-! ## Order -/

def compareFrame : Cell → Cell → Ordering :=
  compareLex (compareOn session) (compareBoth version year)

/-- The parts from the period on to the account. -/
def compareMiddle : Cell → Cell → Ordering :=
  compareLex (compareBoth period orgUnit) (compareBoth service account)

/-- Cells are compared by session, version, year, period, organisational unit, service, account,
key figure and extra dimensions, in this order; a part that is left open comes first. -/
instance : Ord Cell where
  compare := compareLex (compareLex compareFrame compareMiddle) (compareBoth keyFigure extra)

instance : Std.TransCmp compareFrame := inferInstanceAs (Std.TransCmp (compareLex _ _))

instance : Std.TransCmp compareMiddle := inferInstanceAs (Std.TransCmp (compareLex _ _))

instance : Std.TransOrd Cell :=
  inferInstanceAs (Std.TransCmp
    (compareLex (compareLex compareFrame compareMiddle) (compareBoth keyFigure extra)))

theorem compare_eq_iff {a b : Cell} : compare a b = .eq ↔ a = b := by
  show compareLex (compareLex compareFrame compareMiddle) (compareBoth keyFigure extra) a b =
    .eq ↔ _
  cases a
  cases b
  simp [compareLex, compareFrame, compareMiddle, Ordering.then_eq_eq, compareBoth_eq_iff, compareOn]
  grind

instance : Std.LawfulEqOrd Cell where
  compare_self := compare_eq_iff.2 rfl
  eq_of_compare h := compare_eq_iff.1 h

end Cell

/-- The key of a fact: the batch it was written in, and its cell. -/
structure FactKey where
  batch : BatchId
  cell : Cell
deriving DecidableEq

namespace FactKey

/-- Keys are compared by batch and then by cell. -/
instance : Ord FactKey := ⟨compareBoth batch cell⟩

instance : Std.TransOrd FactKey := inferInstanceAs (Std.TransCmp (compareBoth batch cell))

instance : Std.LawfulEqOrd FactKey where
  compare_self := compareBoth_eq_iff.2 ⟨rfl, rfl⟩
  eq_of_compare {a b} h := by
    have ⟨hb, hc⟩ := compareBoth_eq_iff.1 h
    cases a
    cases b
    simp_all

def session (k : FactKey) : SessionId := k.cell.session

end FactKey

/-- The key of a cell in a batch. -/
def Cell.inBatch (c : Cell) (b : BatchId) : FactKey := ⟨b, c⟩

end PlanLedger
