import PlanLedger.Decimal.Arithmetic

/-!
# Powers

A power with a whole exponent is found by repeated squaring. Exponents below 1024 use the product of
decimal numbers at each step; for larger ones, whose rounding errors would add up, the steps keep
192 bits of digits and only the last one rounds to a decimal number, as `fitUp?` does. A power with
a fractional exponent is the exponential of the exponent times the logarithm of the base.
-/

namespace PlanLedger.Decimal

/-! ## Whole exponents -/

/-- Multiplies `acc` by the `n`-th power of `base`, taking the binary digits of `n` from the
last. -/
def powBy? {α : Type} (mul : α → α → Option α) (acc base : α) (n : Nat) : Option α :=
  if n = 0 then some acc
  else do
    let acc ← if n % 2 = 1 then mul acc base else some acc
    if n / 2 = 0 then some acc
    else
      let square ← mul base base
      powBy? mul acc square (n / 2)
termination_by n
decreasing_by omega

/-- The product of two numbers given by digits and decimals, with the digits kept below 192
bits. -/
def wideMul? (a b : Nat × Nat) : Option (Nat × Nat) :=
  dropUntil? dropDigits (2 ^ 192) 0 (a.1 * b.1) (a.2 + b.2)

/-- The `n`-th power by products with 192 bits of digits. -/
def widePow? (d : Decimal) (n : Nat) : Option Decimal := do
  let (m, s) ← powBy? wideMul? (1, 0) (d.mantissa, d.scale) n
  fitUp? (d.negative && n % 2 = 1) m s

/-- The `n`-th power. From the third on it has no zeros at the end of its decimals. -/
def powNat? (d : Decimal) (n : Nat) : Option Decimal :=
  if n = 0 then some one
  else if d.isZero then some zero
  else if d.sameValue one then some one
  else if n = 1 then some d
  else if n = 2 then d.mul? d
  else if n < 1024 then (powBy? mul? one d n).map normalize
  else (d.widePow? n).map normalize

/-- The power with a whole exponent; a negative one divides one by the power. -/
def powInt? (d : Decimal) (n : Int) : Option Decimal :=
  if n < 0 then do
    let p ← powNat? d n.natAbs
    one.div? p
  else powNat? d n.natAbs

/-! ## Logarithms -/

def euler : Decimal := ⟨false, 27182818284590452353602874714, 28, by decide, by decide⟩

def eulerInverse : Decimal := ⟨false, 3678794411714423215955237702, 28, by decide, by decide⟩

def lnTen : Decimal := ⟨false, 2302585092994045684017991454, 27, by decide, by decide⟩

def two : Decimal := { one with mantissa := 2, mantissa_lt := by decide }

/-- The largest `k` up to a bound for which `10 ^ k` is at most `m`, and zero if there is none. -/
def digitsAfterFirst (m : Nat) : (bound : Nat) → Nat
  | 0 => 0
  | k + 1 => if 10 ^ (k + 1) ≤ m then k + 1 else digitsAfterFirst m k

/-- Divides by Euler's number until the value is below one, counting the steps. -/
def scaleDown? : (fuel : Nat) → Decimal → Nat → Option (Decimal × Nat)
  | 0, x, n => some (x, n)
  | fuel + 1, x, n =>
    if x.below one then some (x, n)
    else do scaleDown? fuel (← x.mul? eulerInverse) (n + 1)

/-- Sums the series of the inverse hyperbolic tangent from the power of `odd + 2` on, until a term
no longer changes the sum. -/
def artanhSeries? (square : Decimal) : (rounds : Nat) → (odd : Nat) → (power sum : Decimal) →
    Option Decimal
  | 0, _, _, sum => some sum
  | rounds + 1, odd, power, sum => do
    let power ← power.mul? square
    let term ← power.div? (← ofInt? (odd + 2 : Nat))
    let next ← sum.add? term
    if next.sameValue sum then some sum
    else artanhSeries? square rounds (odd + 2) power next

/-- The logarithm of a number from one up to ten. Three divisions by Euler's number at most bring it
below one, where the logarithm of `x` is twice the inverse hyperbolic tangent of
`(x - 1) / (x + 1)`. -/
def lnDigits? (d : Decimal) : Option Decimal :=
  if d.sameValue one then some zero
  else do
    let (x, n) ← scaleDown? 3 d 0
    let z ← (← x.sub? one).div? (← x.add? one)
    let sum ← artanhSeries? (← z.mul? z) 100 1 z z
    (← ofInt? n).add? (← two.mul? sum)

/-- The natural logarithm of a positive number, from those of its digits and of its power of ten. -/
def ln? (d : Decimal) : Option Decimal :=
  if d.negative || d.isZero then none
  else do
    let k := digitsAfterFirst d.mantissa 28
    let tens ← (← ofInt? ((k : Int) - d.scale)).mul? lnTen
    tens.add? (← lnDigits? (← ofParts? false d.mantissa k))

/-! ## Exponentials -/

/-- The count of decimals with which the exponential of a fraction is summed up; a sum below three
then fits into 192 bits. -/
def expPlaces : Nat := 57

/-- Sums the series of the exponential of `m / 10 ^ s` from the `i`-th term on. The term before it
and the sum have `expPlaces` decimals. -/
def expSeries (m s : Nat) : (rounds : Nat) → (i : Nat) → (term sum : Nat) → Nat
  | 0, _, _, sum => sum
  | rounds + 1, i, term, sum =>
    let term := term * m / (10 ^ s * i)
    if term = 0 then sum else expSeries m s rounds (i + 1) term (sum + term)

/-- The exponential of the value without its sign: the power of Euler's number for the whole part,
times the series for the decimals, with 192 bits of digits. -/
def expAbs? (d : Decimal) : Option Decimal := do
  let whole ← powBy? wideMul? (1, 0) (euler.mantissa, euler.scale) (d.mantissa / 10 ^ d.scale)
  let fraction :=
    expSeries (d.mantissa % 10 ^ d.scale) d.scale 100 1 (10 ^ expPlaces) (10 ^ expPlaces)
  let (m, s) ← wideMul? whole (fraction, expPlaces)
  fitUp? false m s

/-- The exponential. -/
def exp? (d : Decimal) : Option Decimal :=
  if d.negative && !d.isZero then do one.div? (← d.expAbs?)
  else d.expAbs?

/-! ## Fractional exponents -/

/-- The power with a fractional exponent. -/
def powReal? (d exponent : Decimal) : Option Decimal :=
  if d.sameValue one then some one
  else do
    let log ← d.abs.ln?
    let e ← log.mul? exponent.normalize
    let p ← exp? e
    some { p with negative := d.negative }

/-! ## Powers in formulas -/

/-- The power of two numbers. Zero has only the powers zero and one, and a whole exponent lies
within 64 bits. -/
def pow? (base exponent : Decimal) : Option Decimal :=
  if base.isZero then some (if exponent.isZero then one else zero)
  else if exponent.isWhole then
    let n := exponent.truncate
    if -(2 ^ 63) ≤ n ∧ n < 2 ^ 63 then powInt? base n else none
  else powReal? base exponent

end PlanLedger.Decimal
