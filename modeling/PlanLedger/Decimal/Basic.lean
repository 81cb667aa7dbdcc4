/-!
# Decimal numbers

A decimal number is a sign, a whole number of at most 96 bits and a count of decimals of at most
28; its value is the whole number divided by that power of ten. The count of decimals is kept, so
`1.5` and `1.50` are two numbers with one value, and a zero may carry a sign. Comparisons are by
value.
-/

namespace PlanLedger

-- A power of numbers is the built-in one, also where the power of a monoid is in scope.
attribute [instance (high), default_instance high + 1] instPowNat

/-- A number with up to 28 decimals and 96 bits of digits. -/
structure Decimal where
  /-- Whether the number is written with a minus sign. -/
  negative : Bool
  /-- The digits, read as one whole number. -/
  mantissa : Nat
  /-- The count of digits after the point. -/
  scale : Nat
  /-- The digits fit into 96 bits. -/
  mantissa_lt : mantissa < 2 ^ 96
  /-- There are at most 28 decimals. -/
  scale_le : scale ≤ 28
deriving DecidableEq

namespace Decimal

def zero : Decimal := ⟨false, 0, 0, by decide, by decide⟩

def one : Decimal := ⟨false, 1, 0, by decide, by decide⟩

instance : Inhabited Decimal := ⟨zero⟩

/-- The number with the given parts, if they are within the limits. -/
def ofParts? (negative : Bool) (mantissa scale : Nat) : Option Decimal :=
  if h : mantissa < 2 ^ 96 ∧ scale ≤ 28 then some ⟨negative, mantissa, scale, h.1, h.2⟩ else none

def ofInt? (n : Int) : Option Decimal := ofParts? (n < 0) n.natAbs 0

/-- Whether the value is zero, with or without a sign. -/
def isZero (d : Decimal) : Bool := d.mantissa == 0

def signed (d : Decimal) : Int := if d.negative then -(d.mantissa : Int) else d.mantissa

/-- The digits with the sign, extended to `s` decimals. -/
def signedAt (d : Decimal) (s : Nat) : Int := d.signed * 10 ^ (s - d.scale)

/-! ## Sign -/

/-- The number with the other sign; a zero changes its sign as well. -/
def neg (d : Decimal) : Decimal := { d with negative := !d.negative }

def abs (d : Decimal) : Decimal := { d with negative := false }

/-! ## Order -/

/-- Compares by value. -/
def cmp (a b : Decimal) : Ordering :=
  compare (a.signedAt (Nat.max a.scale b.scale)) (b.signedAt (Nat.max a.scale b.scale))

/-- Whether two numbers have the same value. -/
def sameValue (a b : Decimal) : Bool := a.cmp b == .eq

/-- Whether the first value is below the second. -/
def below (a b : Decimal) : Bool := a.cmp b == .lt

/-- The smaller of two numbers, the first if they have the same value. -/
def min (a b : Decimal) : Decimal := if b.below a then b else a

/-- The larger of two numbers, the first if they have the same value. -/
def max (a b : Decimal) : Decimal := if a.below b then b else a

/-! ## Whole numbers -/

/-- Whether there is nothing behind the point but zeros. -/
def isWhole (d : Decimal) : Bool := d.mantissa % 10 ^ d.scale == 0

/-- The whole number before the point, with the sign. -/
def truncate (d : Decimal) : Int :=
  if d.negative then -((d.mantissa / 10 ^ d.scale : Nat) : Int)
  else (d.mantissa / 10 ^ d.scale : Nat)

end Decimal

end PlanLedger
