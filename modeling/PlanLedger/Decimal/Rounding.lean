import PlanLedger.Decimal.Basic

/-!
# Rounding

Dropping decimals rounds to the nearest whole number of the digits that stay, and a tie goes to
the even one. `fit?` brings an exact result into the limits of a decimal number: it drops as few
decimals as possible. `fitUp?` does the same for results that are known with more digits than that,
and rounds them away from zero if the first digits that go are not zeros.
-/

namespace PlanLedger.Decimal

/-! ## Quotients to the nearest whole number -/

/-- `n / d` rounded to the nearest whole number, ties to the even one. -/
def divRoundEven (n d : Nat) : Nat :=
  let q := n / d
  let r := n % d
  if d < 2 * r ∨ (2 * r = d ∧ q % 2 = 1) then q + 1 else q

/-- Drops the last `k` digits of `m`, rounding to the nearest and ties to even. A number below
`2 ^ k` is far below half of `10 ^ k`, so it becomes zero without the power being computed. -/
def dropDigits (m k : Nat) : Nat := if m.log2 < k then 0 else divRoundEven m (10 ^ k)

/-- The shortcut of `dropDigits` changes nothing. -/
theorem dropDigits_eq (m k : Nat) : dropDigits m k = divRoundEven m (10 ^ k) := by
  unfold dropDigits
  split
  · rename_i h
    have hm : m < 2 ^ k := Nat.lt_of_lt_of_le Nat.lt_log2_self (Nat.pow_le_pow_right (by decide) h)
    have h5 : 5 ≤ 5 ^ k := by
      calc 5 = 5 ^ 1 := by decide
        _ ≤ 5 ^ k := Nat.pow_le_pow_right (by decide) (by omega)
    have h10 : 10 ^ k = 2 ^ k * 5 ^ k := by rw [← Nat.mul_pow]
    have hle : 2 ^ k * 5 ≤ 10 ^ k := h10 ▸ Nat.mul_le_mul_left _ h5
    have hlt : m < 10 ^ k := by omega
    simp only [divRoundEven, Nat.div_eq_of_lt hlt, Nat.mod_eq_of_lt hlt]
    rw [if_neg]
    omega
  · rfl

/-- How many of `k` digits are dropped before the last group of at most nine. -/
def digitsBeforeLastGroup (k : Nat) : Nat := 9 * ((k - 1) / 9)

/-- Drops the last `k` digits of `m` in groups of nine, the lowest first and at last one of at most
nine. The number is rounded up unless that last group is zero; the groups before it have no
influence. If these are more than all digits, nothing is left, without a power being computed. -/
def dropDigitsUp (m k : Nat) : Nat :=
  let unseen := digitsBeforeLastGroup k
  if m.log2 < unseen then 0
  else (m / 10 ^ unseen + (10 ^ (k - unseen) - 1)) / 10 ^ (k - unseen)

/-- The shortcut of `dropDigitsUp` changes nothing. -/
theorem dropDigitsUp_eq (m k : Nat) :
    dropDigitsUp m k =
      (m / 10 ^ digitsBeforeLastGroup k + (10 ^ (k - digitsBeforeLastGroup k) - 1)) /
        10 ^ (k - digitsBeforeLastGroup k) := by
  simp only [dropDigitsUp]
  split
  · rename_i h
    have hm : m < 10 ^ digitsBeforeLastGroup k :=
      Nat.lt_of_lt_of_le Nat.lt_log2_self
        (Nat.le_trans (Nat.pow_le_pow_right (by decide) h) (Nat.pow_le_pow_left (by decide) _))
    have hpos : 0 < 10 ^ (k - digitsBeforeLastGroup k) := Nat.pow_pos (by decide)
    rw [Nat.div_eq_of_lt hm, Nat.zero_add, Nat.div_eq_of_lt (by omega)]
  · rfl

/-! ## Bringing a result into the limits -/

/-- The first of the numbers `k`, `k + 1`, … of dropped digits, `tries` in all, that brings the
digits below a limit. -/
def firstDrop? (drop : Nat → Nat) (limit k : Nat) : (tries : Nat) → Option Nat
  | 0 => none
  | tries + 1 => if drop k < limit then some k else firstDrop? drop limit (k + 1) tries

/-- Drops the fewest decimals of `m / 10 ^ s`, and at least `atLeast` of them, so that the digits
stay below `limit`. There is no answer if not even the whole part fits. -/
def dropUntil? (drop : Nat → Nat → Nat) (limit atLeast m s : Nat) : Option (Nat × Nat) :=
  (firstDrop? (drop m) limit atLeast (s + 1 - atLeast)).map fun k ↦ (drop m k, s - k)

/-- Brings `m / 10 ^ s` to the most decimals, 28 at most, with which its digits fit into 96 bits, by
a way of dropping digits. A number that becomes zero keeps its sign. -/
def fitBy? (drop : Nat → Nat → Nat) (negative : Bool) (m s : Nat) : Option Decimal :=
  if m < 2 ^ 96 ∧ s ≤ 28 then ofParts? negative m s
  else match dropUntil? drop (2 ^ 96) (s - 28) m s with
    | some (m', s') => ofParts? negative m' s'
    | none => none

/-- Rounds `m / 10 ^ s` into the limits to the nearest, ties to even. -/
def fit? : (negative : Bool) → (m s : Nat) → Option Decimal := fitBy? dropDigits

/-- Rounds `m / 10 ^ s` into the limits, away from zero if the last digits to go are not zeros. -/
def fitUp? : (negative : Bool) → (m s : Nat) → Option Decimal := fitBy? dropDigitsUp

/-! ## Rounding a number -/

/-- Rounds to at most `places` decimals, ties to even. A number with no more decimals is left as
it is, and what becomes zero loses its sign. -/
def roundTo (d : Decimal) (places : Nat) : Decimal :=
  if h : places < d.scale then
    let m := divRoundEven d.mantissa (10 ^ (d.scale - places))
    { negative := d.negative && (d.isZero || m != 0)
      mantissa := m
      scale := places
      mantissa_lt := by
        have h1 : 1 ≤ d.scale - places := by omega
        have h10 : 10 ≤ 10 ^ (d.scale - places) := by
          calc 10 = 10 ^ 1 := by decide
            _ ≤ 10 ^ (d.scale - places) := Nat.pow_le_pow_right (by decide) h1
        have hd : d.mantissa / 10 ^ (d.scale - places) ≤ d.mantissa / 10 :=
          Nat.div_le_div_left h10 (by decide)
        have := d.mantissa_lt
        show divRoundEven d.mantissa (10 ^ (d.scale - places)) < 2 ^ 96
        simp only [divRoundEven]
        split <;> omega
      scale_le := by have := d.scale_le; omega }
  else d

/-- The largest `k ≤ room` with `m * 10 ^ k` below 96 bits. -/
def padding (m : Nat) : Nat → Nat
  | 0 => 0
  | room + 1 => if m * 10 ^ (room + 1) < 2 ^ 96 then room + 1 else padding m room

theorem padding_le (m room : Nat) : padding m room ≤ room := by
  induction room with
  | zero => simp [padding]
  | succ r ih => rw [padding]; split <;> omega

theorem mul_padding_lt {m : Nat} (h : m < 2 ^ 96) (room : Nat) :
    m * 10 ^ padding m room < 2 ^ 96 := by
  induction room with
  | zero => simpa [padding] using h
  | succ r ih => rw [padding]; split <;> assumption

/-- Appends zeros until there are `places` decimals, as far as the limits allow. -/
def padTo (d : Decimal) (places : Nat) : Decimal :=
  let k := padding d.mantissa (Nat.min places 28 - d.scale)
  { negative := d.negative
    mantissa := d.mantissa * 10 ^ k
    scale := d.scale + k
    mantissa_lt := mul_padding_lt d.mantissa_lt _
    scale_le := by
      have := padding_le d.mantissa (Nat.min places 28 - d.scale)
      have h28 : Nat.min places 28 ≤ 28 := Nat.min_le_right _ _
      have := d.scale_le
      show d.scale + padding d.mantissa (Nat.min places 28 - d.scale) ≤ 28
      omega }

/-- The number as a result with `places` decimals: rounded to them, and filled up with zeros. -/
def toPlaces (d : Decimal) (places : Nat) : Decimal := (d.roundTo places).padTo places

end PlanLedger.Decimal
