import PlanLedger.Decimal.Rounding

/-!
# Sums, products and quotients

Each operation works on the exact result and then brings it into the limits; `none` says that the
whole part of the result does not fit. The count of decimals of a result is part of the answer:
a sum has the decimals of its more precise operand, a product those of both operands together, and
a quotient those that the long division used.
-/

namespace PlanLedger.Decimal

/-! ## Sums -/

/-- Adds. A zero leaves the other operand as it is, decimals included. -/
def add? (a b : Decimal) : Option Decimal :=
  if a.isZero then some b
  else if b.isZero then some a
  else
    let s := Nat.max a.scale b.scale
    let total := a.signedAt s + b.signedAt s
    fit? (total < 0) total.natAbs s

/-- Subtracts. Taking something from zero negates it, and taking zero changes nothing. -/
def sub? (a b : Decimal) : Option Decimal :=
  if a.isZero then some (if b.isZero then b else b.neg)
  else add? a b.neg

/-! ## Products -/

/-- Takes the sign from a zero and leaves other numbers as they are. -/
def unsignedZero (d : Decimal) : Decimal := if d.isZero then d.abs else d

/-- Multiplies. A product with a zero is the plain zero, and so is one of two mantissas of 32 bits
whose decimals reach more than 19 places beyond the limit. Any other product of such mantissas has
no sign if it rounds to zero, while a product of longer mantissas keeps it. -/
def mul? (a b : Decimal) : Option Decimal :=
  if a.isZero || b.isZero then some zero
  else
    let product := fit? (a.negative != b.negative) (a.mantissa * b.mantissa) (a.scale + b.scale)
    if a.mantissa < 2 ^ 32 ∧ b.mantissa < 2 ^ 32 then
      if 47 < a.scale + b.scale then some zero else product.map unsignedZero
    else product

/-! ## Quotients

Long division: the integer quotient of the mantissas is extended by up to nine decimals at a time
while there is a remainder. The count `room` of decimals that may still be added stands for the
scale of the quotient so far, which is `28 - room`; it is more than 28 while that scale is
negative. -/

/-- The digits of a quotient that reached 96 bits lose one decimal. A non-zero remainder below
the last digit breaks a tie. -/
def dropOverflow (q : Nat) (rest : Bool) : Nat :=
  if 5 < q % 10 ∨ (q % 10 = 5 ∧ (rest ∨ q / 10 % 2 = 1)) then q / 10 + 1 else q / 10

/-- The most decimals, nine at most and `room` at most, by which `q` can be extended within 96
bits. -/
def extension (q room : Nat) : Nat := padding q (Nat.min 9 room)

/-- The quotient, its mantissa and scale, without the zeros at its end being looked at; the flag
says whether there ever was a remainder. The arguments are the quotient and remainder so far and
the decimals still to come. -/
def divideLoop (divisor q r room : Nat) (inexact : Bool) : Option (Nat × Nat × Bool) :=
  if r = 0 then
    if room ≤ 28 then some (q, 28 - room, inexact)
    else
      let k := Nat.min 9 (room - 28)
      if q * 10 ^ k < 2 ^ 96 then divideLoop divisor (q * 10 ^ k) 0 (room - k) inexact else none
  else
    let k := extension q room
    if k < 9 ∧ 28 < room - k then none
    else if k = 0 then
      let q' := if divisor < 2 * r ∨ (2 * r = divisor ∧ q % 2 = 1) then q + 1 else q
      if q' < 2 ^ 96 then some (q', 28 - room, true)
      else if room < 28 then some (dropOverflow q' true, 27 - room, true) else none
    else
      let q' := q * 10 ^ k + r * 10 ^ k / divisor
      let r' := r * 10 ^ k % divisor
      if q' < 2 ^ 96 then divideLoop divisor q' r' (room - k) true
      else if room - k < 28 then some (dropOverflow q' (r' != 0), 27 - (room - k), true) else none
termination_by room
decreasing_by
  · have : Nat.min 9 (room - 28) = 9 ∨ Nat.min 9 (room - 28) = room - 28 := by
      simp only [Nat.min_def]; split <;> simp
    omega
  · have hk : extension q room ≤ room :=
      Nat.le_trans (padding_le _ _) (Nat.min_le_right _ _)
    omega

/-- Removes `n` zeros at the end of the digits if they are there, in one step. -/
def stripStep (n : Nat) (bits : Nat) (p : Nat × Nat) : Nat × Nat :=
  if p.1 % 2 ^ bits = 0 ∧ n ≤ p.2 ∧ p.1 % 10 ^ n = 0 then (p.1 / 10 ^ n, p.2 - n) else p

/-- Removes zeros at the end eight at a time while the low 32 bits are clear. -/
def stripEights : (steps : Nat) → Nat × Nat → Nat × Nat
  | 0, p => p
  | steps + 1, p =>
    if p.1 % 2 ^ 32 = 0 ∧ 8 ≤ p.2 ∧ p.1 % 10 ^ 8 = 0 then
      stripEights steps (p.1 / 10 ^ 8, p.2 - 8)
    else p

/-- Removes zeros at the end of a quotient: by eights, then four, two and one at most once. -/
def stripZeros (m s : Nat) : Nat × Nat :=
  stripStep 1 1 (stripStep 2 2 (stripStep 4 4 (stripEights 3 (m, s))))

/-- Divides. There is no answer for a zero divisor or if the whole part does not fit. -/
def div? (a b : Decimal) : Option Decimal :=
  if b.isZero then none
  else if a.isZero then some zero
  else do
    let (m, s, inexact) ← divideLoop b.mantissa (a.mantissa / b.mantissa)
      (a.mantissa % b.mantissa) (28 + b.scale - a.scale) false
    let (m, s) := if inexact then stripZeros m s else (m, s)
    ofParts? ((a.negative != b.negative) && m != 0) m s

/-! ## Zeros at the end -/

/-- Removes all zeros at the end of the decimals. -/
def trimZeros (m : Nat) : Nat → Nat × Nat
  | 0 => (m, 0)
  | s + 1 => if m % 10 = 0 then trimZeros (m / 10) s else (m, s + 1)

/-- The number with the fewest decimals of the same value; zero becomes the plain zero. -/
def normalize (d : Decimal) : Decimal :=
  if d.isZero then zero
  else
    (ofParts? d.negative (trimZeros d.mantissa d.scale).1 (trimZeros d.mantissa d.scale).2).getD d

end PlanLedger.Decimal
