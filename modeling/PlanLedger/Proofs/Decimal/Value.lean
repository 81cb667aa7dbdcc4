import Mathlib.Algebra.Order.Field.Basic
import Mathlib.Algebra.Order.Field.Rat
import Mathlib.Data.Rat.Lemmas
import Mathlib.Tactic.FieldSimp
import Mathlib.Tactic.Linarith
import Mathlib.Tactic.Ring
import PlanLedger.Proofs.Decimal.Range

/-!
# Values of decimal numbers

The value of a decimal number is a rational one, and what compares numbers compares their values.
The multiples of a power of ten that have at most 96 bits of digits form a grid.
-/

namespace PlanLedger.Decimal

def toRat (d : Decimal) : ℚ := d.signed / 10 ^ d.scale

theorem toRat_eq_div {d : Decimal} {s : Nat} (h : d.scale ≤ s) :
    d.toRat = d.signedAt s / 10 ^ s := by
  have hpow : (10 : ℚ) ^ s = 10 ^ d.scale * 10 ^ (s - d.scale) := by
    rw [← pow_add, Nat.add_sub_cancel' h]
  rw [toRat, signedAt, hpow]
  push_cast
  exact (mul_div_mul_right _ _ (by positivity)).symm

/-! ## Signs and comparisons -/

theorem signed_neg (d : Decimal) : d.neg.signed = -d.signed := by
  rw [neg, signed, signed]
  cases d.negative <;> simp

theorem toRat_neg (d : Decimal) : d.neg.toRat = -d.toRat := by
  rw [toRat, signed_neg, Int.cast_neg, neg_div]
  rfl

theorem isZero_iff {d : Decimal} : d.isZero = true ↔ d.toRat = 0 := by
  rw [isZero, beq_iff_eq, toRat, div_eq_zero_iff, or_iff_left (by positivity), Int.cast_eq_zero,
    signed]
  cases d.negative <;> simp

theorem toRat_abs (d : Decimal) : d.abs.toRat = |d.toRat| := by
  have habs : (d.abs.signed : ℚ) = |(d.signed : ℚ)| := by
    rw [abs, signed, signed]
    cases d.negative <;> simp
  rw [toRat, toRat, habs, abs_div, abs_of_pos (show (0 : ℚ) < 10 ^ d.scale by positivity)]
  rfl

theorem below_iff {a b : Decimal} : a.below b = true ↔ a.toRat < b.toRat := by
  have hpos : (0 : ℚ) < 10 ^ Nat.max a.scale b.scale := by positivity
  rw [below, beq_iff_eq, cmp, Int.compare_eq_lt, toRat_eq_div (Nat.le_max_left a.scale b.scale),
    toRat_eq_div (Nat.le_max_right a.scale b.scale), div_lt_div_iff_of_pos_right hpos, Int.cast_lt]

/-! ## Numbers of decimals -/

theorem scale_roundTo_le (d : Decimal) (places : Nat) : (d.roundTo places).scale ≤ places := by
  rw [roundTo]
  split
  · exact Nat.le_refl _
  · exact Nat.le_of_not_lt ‹_›

theorem scale_toPlaces_le (d : Decimal) (places : Nat) : (d.toPlaces places).scale ≤ places := by
  have hround := d.scale_roundTo_le places
  have hpadding := padding_le (d.roundTo places).mantissa
    (Nat.min places 28 - (d.roundTo places).scale)
  have hmin : Nat.min places 28 ≤ places := Nat.min_le_left _ _
  show (d.roundTo places).scale + padding _ _ ≤ places
  omega

/-! ## Grids -/

/-- The multiples of `10 ^ -places` whose digits fit into 96 bits. -/
def OnGrid (places : Nat) (q : ℚ) : Prop := ∃ n : ℤ, n.natAbs < 2 ^ 96 ∧ q = n / 10 ^ places

variable {places : Nat}

theorem onGrid_iff {q : ℚ} :
    OnGrid places q ↔ (q * 10 ^ places).den = 1 ∧ (q * 10 ^ places).num.natAbs < 2 ^ 96 := by
  have hpow : (10 : ℚ) ^ places ≠ 0 := by positivity
  constructor
  · rintro ⟨n, hn, rfl⟩
    rw [div_mul_cancel₀ _ hpow, Rat.den_intCast, Rat.num_intCast]
    exact ⟨rfl, hn⟩
  · rintro ⟨hden, hnum⟩
    refine ⟨_, hnum, ?_⟩
    rw [Rat.coe_int_num_of_den_eq_one hden, mul_div_cancel_right₀ _ hpow]

instance : DecidablePred (OnGrid places) := fun _ ↦ decidable_of_iff' _ onGrid_iff

theorem OnGrid.natAbs_lt {n : ℤ} {s : Nat} (hs : s ≤ places) (h : OnGrid places (n / 10 ^ s)) :
    n.natAbs < 2 ^ 96 := by
  obtain ⟨m, hm, heq⟩ := h
  have hpow : (10 : ℚ) ^ places = 10 ^ s * 10 ^ (places - s) := by
    rw [← pow_add, Nat.add_sub_cancel' hs]
  have hmul : (m : ℚ) = n * 10 ^ (places - s) := by
    rw [hpow] at heq
    field_simp at heq
    linarith
  have hmul : m = n * 10 ^ (places - s) := by exact_mod_cast hmul
  rw [hmul, Int.natAbs_mul] at hm
  refine Nat.lt_of_le_of_lt (Nat.le_mul_of_pos_right _ ?_) hm
  exact Int.natAbs_pos.mpr (by positivity)

end PlanLedger.Decimal
