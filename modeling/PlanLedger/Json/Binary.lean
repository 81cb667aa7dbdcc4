import PlanLedger.Json.Basic
import PlanLedger.Text.Digits

/-!
# Binary fractions of 64 bits

A number with a point or an exponent is read as a binary fraction with 53 bits and an exponent of 11
bits: its digits and its power of ten are rounded to such fractions, and then their product or
quotient. A binary fraction is written with the fewest digits that are nearest to it and to no other
one.
-/

namespace PlanLedger.BinaryFraction

/-! ## Rounding to 53 bits -/

/-- The exponent of the last of 53 bits of `n / d`, which is not below -1074. -/
def lastBit (n d : Nat) : Int :=
  let guess : Int := (n.log2 : Int) - d.log2 - 53
  let tooLow : Bool :=
    if 0 ≤ guess then 2 ^ 53 * (d * 2 ^ guess.toNat) ≤ n else 2 ^ 53 * d ≤ n * 2 ^ guess.natAbs
  let exponent := if tooLow then guess + 1 else guess
  if exponent < -1074 then -1074 else exponent

/-- `n / d` to the nearest whole number, ties to the even one. -/
def divNearest (n d : Nat) : Nat :=
  let q := n / d
  let r := n % d
  if d < 2 * r ∨ (2 * r = d ∧ q % 2 = 1) then q + 1 else q

/-- The mantissa and exponent of the fraction of 53 bits that is nearest to `n / d`. -/
def nearest (n d : Nat) : Nat × Int :=
  if n = 0 then (0, -1074)
  else
    let e := lastBit n d
    let m := if 0 ≤ e then divNearest n (d * 2 ^ e.toNat) else divNearest (n * 2 ^ e.natAbs) d
    if m = 2 ^ 53 then (2 ^ 52, e + 1) else (m, e)

/-- A fraction as a quotient of whole numbers. -/
def quotient (x : Nat × Int) : Nat × Nat :=
  if 0 ≤ x.2 then (x.1 * 2 ^ x.2.toNat, 1) else (x.1, 2 ^ x.2.natAbs)

/-- Whether the exponent is too large for 11 bits. -/
def isTooLarge (x : Nat × Int) : Bool := 971 < x.2

def powerOfTen (k : Nat) : Nat × Int := nearest (10 ^ k) 1

def times (x y : Nat × Int) : Nat × Int :=
  let a := quotient x
  let b := quotient y
  nearest (a.1 * b.1) (a.2 * b.2)

def dividedBy (x y : Nat × Int) : Nat × Int :=
  let a := quotient x
  let b := quotient y
  nearest (a.1 * b.2) (a.2 * b.1)

/-- The largest power of ten that is a fraction of 64 bits. -/
def maxPowerOfTen : Nat := 308

/-- Divides by `10 ^ k` in steps of the largest power. -/
def shiftDown (x : Nat × Int) (k : Nat) : Nat × Int :=
  if k ≤ maxPowerOfTen then dividedBy x (powerOfTen k)
  else if x.1 = 0 then x
  else shiftDown (dividedBy x (powerOfTen maxPowerOfTen)) (k - maxPowerOfTen)
termination_by k
decreasing_by simp only [maxPowerOfTen] at *; omega

/-- The fraction read from digits and an exponent of ten, unless it is too large. -/
def ofScientific? (negative : Bool) (digits : Nat) (exponent : Int) : Option BinaryFraction :=
  let x := nearest digits 1
  if exponent < 0 then
    let y := shiftDown x exponent.natAbs
    some ⟨negative, y.1, y.2⟩
  else if x.1 = 0 then some ⟨negative, 0, -1074⟩
  else if exponent ≤ maxPowerOfTen then
    let y := times x (powerOfTen exponent.toNat)
    if isTooLarge y then none else some ⟨negative, y.1, y.2⟩
  else none

/-! ## The fewest digits -/

/-- The value of `digits * 10 ^ exponent` as a fraction. -/
def ofDigits (digits : Nat) (exponent : Int) : Nat × Int :=
  if 0 ≤ exponent then nearest (digits * 10 ^ exponent.toNat) 1
  else nearest digits (10 ^ exponent.natAbs)

/-- Of the two neighbours of a fraction among the multiples of `10 ^ exponent`, the one that reads
back as the fraction, the nearer one first and of two equally near ones the larger. -/
def neighbour? (x : Nat × Int) (exponent : Int) : Option Nat :=
  let (n, d) := quotient x
  let (n, d) :=
    if 0 ≤ exponent then (n, d * 10 ^ exponent.toNat) else (n * 10 ^ exponent.natAbs, d)
  let low := n / d
  let candidates := if d ≤ 2 * (n % d) then [low + 1, low] else [low, low + 1]
  candidates.find? fun digits ↦ ofDigits digits exponent = x

/-- The exponent of the first decimal digit of a fraction that is not zero, or one more. -/
def leadingExponent (x : Nat × Int) : Int :=
  let (n, d) := quotient x
  ((toString n).length : Int) - (toString d).length

/-- The fewest digits that read back, tried from an exponent down. -/
def fewest (x : Nat × Int) : (tries : Nat) → (exponent : Int) → Nat × Int
  | 0, exponent => (((neighbour? x exponent).getD 0), exponent)
  | tries + 1, exponent =>
    match neighbour? x exponent with
    | some digits => if digits = 0 then fewest x tries (exponent - 1) else (digits, exponent)
    | none => fewest x tries (exponent - 1)

/-- The fewest digits of a fraction, with the exponent of the last one. -/
def shortest (x : BinaryFraction) : Nat × Int :=
  if x.mantissa = 0 then (0, 0)
  else fewest (x.mantissa, x.exponent) 20 (leadingExponent (x.mantissa, x.exponent) + 1)

/-- The fewest digits of a fraction in positional notation. -/
def toPositional (x : BinaryFraction) : String :=
  let (digits, exponent) := x.shortest
  let sign := if x.negative then "-" else ""
  if 0 ≤ exponent then sign ++ toString (digits * 10 ^ exponent.toNat)
  else
    let k := exponent.natAbs
    sign ++ toString (digits / 10 ^ k) ++ "." ++
      String.ofList (Text.paddedDigits (digits % 10 ^ k) k)

end PlanLedger.BinaryFraction
