import PlanLedger.SortedMap.Order

/-!
# Dimensions

A dimension is one axis along which facts are classified. Seven of them are always there; any
other name stands for an extra dimension. Dimensions are ordered: the seven first, in a fixed
order, and then the extra ones by name.
-/

namespace PlanLedger

/-- The number of a dimension value within its master list. -/
abbrev DimId := Nat

/-- One axis of classification. -/
inductive Dimension where
  | orgUnit
  | service
  | period
  | year
  | version
  | account
  | keyFigure
  | extra (name : String)
deriving DecidableEq

namespace Dimension

/-- The dimensions that are always there, in their order. -/
def builtin : List Dimension :=
  [orgUnit, service, period, year, version, account, keyFigure]

/-- The name of a dimension as it is printed. -/
def name : Dimension → String
  | orgUnit => "OrgUnit"
  | service => "Service"
  | period => "Period"
  | year => "Year"
  | version => "Version"
  | account => "Account"
  | keyFigure => "KeyFigure"
  | extra name => name

instance : ToString Dimension := ⟨name⟩

def isExtra : Dimension → Bool
  | extra _ => true
  | _ => false

/-! ## Names -/

/-- The lower case of a letter in the names of dimensions: the capital letters of English, and the
sign of the unit kelvin, which is a capital K. -/
def lowerLetter (c : Char) : Char := if c = '\u212a' then 'k' else c.toLower

/-- A name without the difference of case and without underscores and hyphens. -/
def foldName (s : String) : String :=
  String.ofList ((s.toList.filter fun c ↦ c ≠ '_' ∧ c ≠ '-').map lowerLetter)

/-- The dimension that a name stands for. Case, underscores and hyphens do not count for the
dimensions that are always there; an extra dimension is named exactly. -/
def ofName (s : String) : Dimension :=
  match foldName s with
  | "orgunit" | "org" | "organization" => orgUnit
  | "service" => service
  | "period" => period
  | "year" => year
  | "version" => version
  | "account" => account
  | "keyfigure" | "kf" => keyFigure
  | _ => extra s

/-! ## Order -/

/-- The place of a dimension in the order; the extra dimensions share the last place. -/
def rank : Dimension → Nat
  | orgUnit => 0
  | service => 1
  | period => 2
  | year => 3
  | version => 4
  | account => 5
  | keyFigure => 6
  | extra _ => 7

instance : Ord Dimension := ⟨compareBoth rank name⟩

instance : Std.TransOrd Dimension := inferInstanceAs (Std.TransCmp (compareBoth rank name))

theorem eq_of_rank_of_name {a b : Dimension} (hr : a.rank = b.rank) (hn : a.name = b.name) :
    a = b := by
  cases a <;> cases b <;> simp_all [rank, name]

instance : Std.LawfulEqOrd Dimension where
  compare_self := compareBoth_eq_iff.2 ⟨rfl, rfl⟩
  eq_of_compare h := eq_of_rank_of_name (compareBoth_eq_iff.1 h).1 (compareBoth_eq_iff.1 h).2

end Dimension

end PlanLedger
