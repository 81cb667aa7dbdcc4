/-!
# JSON values

A number is kept as a whole number if it was written as one and fits into 64 bits; any other number
is kept as the binary fraction that is nearest to it. Objects keep their members as they were
written, repetitions included. A part of a text may be written as a value should be and still have
none, for example a number that is too large; such a part does no harm where nobody asks for it.
-/

namespace PlanLedger

/-- A number that was not written as a whole number of 64 bits: `mantissa * 2 ^ exponent`, with a
minus sign if it is negative. -/
structure BinaryFraction where
  negative : Bool
  mantissa : Nat
  exponent : Int
deriving DecidableEq

/-- A JSON value. -/
inductive Json where
  | null
  | bool (b : Bool)
  | integer (n : Int)
  | fraction (x : BinaryFraction)
  | string (s : String)
  | array (items : List Json)
  | object (members : List (String × Json))
  /-- What is written as a value should be but has no value. -/
  | unreadable

namespace Json

instance : Inhabited Json := ⟨null⟩

/-- The value of the first member with a name. -/
def member? (name : String) : List (String × Json) → Option Json
  | [] => none
  | m :: rest => if m.1 = name then some m.2 else member? name rest

mutual

def isReadable : Json → Bool
  | unreadable => false
  | array items => areReadable items
  | object members => haveReadable members
  | _ => true

/-- Whether no item of an array has an unreadable part. -/
def areReadable : List Json → Bool
  | [] => true
  | item :: rest => item.isReadable && areReadable rest

/-- Whether no member of an object has an unreadable part. -/
def haveReadable : List (String × Json) → Bool
  | [] => true
  | m :: rest => m.2.isReadable && haveReadable rest

end

def ofOption {α : Type} (f : α → Json) : Option α → Json
  | some a => f a
  | none => null

def nat (n : Nat) : Json := integer n

end Json

end PlanLedger
