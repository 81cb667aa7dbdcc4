import PlanLedger.Decimal.Text
import PlanLedger.Json.Binary
import PlanLedger.SortedMap.Basic

/-!
# Values in JSON

Simple values are taken out of JSON values of the right kind. A record is an object of its fields,
or an array of them in their order; no field may be given twice. A field that is left out may have
a default, which `null` does not stand for.
-/

namespace PlanLedger.Json

/-! ## Simple values -/

def string? : Json → Option String
  | string s => some s
  | _ => none

def bool? : Json → Option Bool
  | bool b => some b
  | _ => none

/-- A name out of a choice: its text, or an object with the name as the only member and `null` as
its value. -/
def choice? : Json → Option String
  | string s => some s
  | object [(name, null)] => some name
  | _ => none

/-- A natural number below a limit. -/
def nat? (limit : Nat) : Json → Option Nat
  | integer n => if 0 ≤ n ∧ n < limit then some n.toNat else none
  | _ => none

def nat32? : Json → Option Nat := nat? (2 ^ 32)

def nat64? : Json → Option Nat := nat? (2 ^ 64)

/-- A decimal number: its text, a whole number, or a fraction by its fewest digits. -/
def decimal? : Json → Option Decimal
  | string s => Decimal.ofText? s
  | integer n => Decimal.ofInt? n
  | fraction x => Decimal.ofPositional? x.toPositional.toList
  | _ => none

/-- A value, or nothing for `null`. -/
def option? {α : Type} (f : Json → Option α) : Json → Option (Option α)
  | null => some none
  | v => (f v).map some

/-- A list of values. -/
def list? {α : Type} (f : Json → Option α) : Json → Option (List α)
  | array items => items.mapM f
  | _ => none

/-- A pair of values. -/
def pair? {α β : Type} (f : Json → Option α) (g : Json → Option β) : Json → Option (α × β)
  | array [a, b] => do some (← f a, ← g b)
  | _ => none

/-- Values by name. Of two with one name the later counts. -/
def map? {α : Type} (f : Json → Option α) : Json → Option (SortedMap String α)
  | object members => do
    let pairs ← members.mapM fun m ↦ do some (m.1, ← f m.2)
    some (.ofList pairs)
  | _ => none

/-! ## Records -/

abbrev Fields := List (String × Json)

def givenTwice (fields : Fields) (name : String) : Bool :=
  1 < fields.countP fun m ↦ m.1 == name

/-- The fields of an object, none of the named ones given twice. -/
def objectFields? (names : List String) : Json → Option Fields
  | object members => if names.any (givenTwice members) then none else some members
  | _ => none

/-- The fields of a record with the named fields. -/
def fields? (names : List String) : Json → Option Fields
  | array items => if items.length ≤ names.length then some (names.zip items) else none
  | v => objectFields? names v

/-- The fields of a record that has no other fields than the named ones. -/
def onlyFields? (names : List String) (v : Json) : Option Fields := do
  let fields ← fields? names v
  if fields.all fun m ↦ names.contains m.1 then some fields else none

/-- A field that must be given. -/
def required? {α : Type} (f : Json → Option α) (name : String) (fields : Fields) : Option α := do
  f (← member? name fields)

/-- A field with a default. -/
def orDefault? {α : Type} (f : Json → Option α) (name : String) (default : α) (fields : Fields) :
    Option α :=
  match member? name fields with
  | some v => f v
  | none => some default

/-- A field that may be left out or be `null`. -/
def optional? {α : Type} (f : Json → Option α) (name : String) (fields : Fields) :
    Option (Option α) :=
  orDefault? (option? f) name none fields

end PlanLedger.Json
