import Mathlib.Tactic.LinearCombination
import Mathlib.Tactic.NormNum
import PlanLedger.Proofs.Decimal.Nearest
import PlanLedger.Proofs.Formula.Range

/-!
# Rounding to places

The function `ROUND` gives the nearest multiple of a power of ten, ties to even. With places after
the point the number itself is rounded. With tens, hundreds and so on it is divided first, and the
quotient is already rounded if it has more than 28 decimals; then a number that is a little above
one half of the power of ten becomes a tie and goes to zero, where the nearest multiple is the power
of ten. No other number is rounded to another multiple: with that many decimals the quotient is
below one, and one half is the only tie there.
-/

namespace PlanLedger.Decimal

/-! ## Whole numbers -/

/-- A number with a whole value is written as a whole number, but for zeros behind the point. -/
theorem whole_of_toRat_eq {d : Decimal} {n : ℤ} (h : d.toRat = n) :
    d.isWhole = true ∧ d.truncate = n := by
  have hpos : (0 : ℚ) < 10 ^ d.scale := by positivity
  have hdigits : d.mantissa = n.natAbs * 10 ^ d.scale := by
    have habs := d.abs_toRat
    rw [h, eq_div_iff hpos.ne', ← Int.cast_abs, ← Nat.cast_natAbs] at habs
    exact_mod_cast habs.symm
  have hwhole : d.mantissa / 10 ^ d.scale = n.natAbs := by
    rw [hdigits, Nat.mul_div_cancel _ (pow_ten_pos _)]
  refine ⟨by rw [isWhole, hdigits, Nat.mul_mod_left]; rfl, ?_⟩
  have hquotient : (d.mantissa / 10 ^ d.scale : ℚ) = (|n| : ℤ) := by
    rw [div_eq_iff hpos.ne', hdigits, Nat.cast_mul, Nat.cast_natAbs, Nat.cast_pow, Nat.cast_ofNat]
  rw [toRat_eq_ite, hquotient] at h
  rw [truncate, hwhole, Int.natCast_natAbs]
  split
  · rename_i hneg
    rw [if_pos hneg] at h
    exact_mod_cast h
  · rename_i hneg
    rw [if_neg hneg] at h
    exact_mod_cast h

/-! ## Division by powers of ten -/

/-- The power of ten by which rounding to multiples of it divides and multiplies. -/
def powerOfTen (k : Nat) (h : k ≤ 28) : Decimal :=
  { one with
    mantissa := 10 ^ k
    mantissa_lt := lt_of_le_of_lt (Nat.pow_le_pow_right (by decide) h) (by decide) }

variable {k : Nat} {a b d q : Decimal}

theorem ofParts?_powerOfTen (hk : k ≤ 28) : ofParts? false (10 ^ k) 0 = some (powerOfTen k hk) :=
  dif_pos ⟨(powerOfTen k hk).mantissa_lt, Nat.zero_le 28⟩

theorem toRat_powerOfTen (hk : k ≤ 28) : (powerOfTen k hk).toRat = 10 ^ k := by
  rw [toRat, signed]
  simp [powerOfTen, one]

theorem negative_of_div? (h : a.div? b = some q) :
    q.negative = ((a.negative != b.negative) && q.mantissa != 0) := by
  rw [div?] at h
  split_ifs at h
  · cases h
    rw [zero]
    simp
  · obtain ⟨⟨m, s, inexact⟩, -, h⟩ := Option.bind_eq_some_iff.mp h
    dsimp only at h
    rw [ofParts?] at h
    split_ifs at h
    all_goals
      cases h
      rfl

/-- The digits of a quotient by a power of ten are rounded once, to 28 decimals. -/
private theorem isNearestMultiple_quotient {m s c digits : Nat} (hm : m < 2 ^ 96) (hs : s ≤ 28)
    (h : IsQuotient m (10 ^ k) (28 - s) digits c) (hq : IsMultiple 28 (digits / 10 ^ (s + c))) :
    IsNearestMultiple 28 (m / 10 ^ (s + k)) (digits / 10 ^ (s + c)) := by
  rcases h.exact_or_full hm with ⟨whole, hwhole⟩ | hfull
  · have hdigits : digits = whole := by
      rw [h.digits_eq, hwhole, Nat.mul_comm, divRoundEven_mul_self _ (pow_ten_pos k)]
    have hexact : (m / 10 ^ (s + k) : ℚ) = digits / 10 ^ (s + c) := by
      have hcast : (m * 10 ^ c : ℚ) = 10 ^ k * digits := by exact_mod_cast hdigits ▸ hwhole
      rw [div_eq_div_iff (by positivity) (by positivity), pow_add, pow_add]
      linear_combination (10 ^ s : ℚ) * hcast
    rw [hexact]
    exact .of_isMultiple hq
  · have hplaces : s + c = 28 := by omega
    refine ⟨digits, by rw [hplaces, Int.cast_natCast]; norm_cast, ?_⟩
    have hscaled :
        (m / 10 ^ (s + k) * 10 ^ (28 : ℤ) : ℚ) = (m * 10 ^ c : Nat) / (10 ^ k : Nat) := by
      have hpow : (10 : ℚ) ^ (28 : ℤ) = 10 ^ s * 10 ^ c := by
        rw [← pow_add, hplaces]
        norm_cast
      rw [hpow, pow_add]
      push_cast
      field_simp
    rw [hscaled, h.digits_eq]
    exact .divRoundEven _ (pow_ten_pos k)

/-- **Quotients by powers of ten.** A quotient is rounded once, to 28 decimals. -/
theorem exists_div?_powerOfTen (d : Decimal) (hk : k ≤ 28) :
    ∃ q, d.div? (powerOfTen k hk) = some q ∧ IsNearestMultiple 28 (d.toRat / 10 ^ k) q.toRat := by
  obtain ⟨q, digits, c, hq, hquotient, hs, hdigits⟩ := exists_div? (a := d) (b := powerOfTen k hk)
    (beq_eq_false_iff_ne.mpr (pow_ten_pos k).ne') (Nat.zero_le _)
  have hs : q.scale ≤ d.scale + c := hs
  have hdigits : q.mantissa * 10 ^ (d.scale + c - q.scale) = digits := hdigits
  have hsign : q.negative = (d.negative && q.mantissa != 0) := by
    rw [negative_of_div? hq]
    exact congrArg (· && q.mantissa != 0) (Bool.bne_false d.negative)
  have hvalue : |q.toRat| = digits / 10 ^ (d.scale + c) := by
    have hpow : (10 : ℚ) ^ (d.scale + c) = 10 ^ q.scale * 10 ^ (d.scale + c - q.scale) := by
      rw [← pow_add, Nat.add_sub_cancel' hs]
    rw [abs_toRat, hpow, ← hdigits]
    push_cast
    exact (mul_div_mul_right _ _ (by positivity)).symm
  have hnearest : IsNearestMultiple 28 (d.mantissa / 10 ^ (d.scale + k)) |q.toRat| := by
    have hmultiple : IsMultiple 28 |q.toRat| := q.toRat_abs ▸ isMultiple_toRat q.abs.scale_le
    rw [hvalue] at hmultiple ⊢
    exact isNearestMultiple_quotient d.mantissa_lt d.scale_le hquotient hmultiple
  refine ⟨q, hq, ?_⟩
  have hsigned : q.toRat = if d.negative = true then -|q.toRat| else |q.toRat| := by
    rw [abs_toRat, toRat_eq_ite, hsign]
    by_cases hzero : q.mantissa = 0
    · simp [hzero]
    · simp [hzero]
  rw [hsigned, toRat_eq_ite]
  split
  · rw [neg_div, div_div, ← pow_add]
    exact hnearest.neg
  · rw [div_div, ← pow_add]
    exact hnearest

/-! ## Rounding twice -/

/-- A number is above one half, and by no more than half of the last of 28 decimals. -/
def JustAboveHalf (q : ℚ) : Prop := 1 / 2 < |q| ∧ |q| ≤ 1 / 2 + 5 / 10 ^ 29

theorem justAboveHalf_neg {q : ℚ} : JustAboveHalf (-q) ↔ JustAboveHalf q := by
  rw [JustAboveHalf, abs_neg, JustAboveHalf]

theorem IsNearestInt.zero_of_le_half {q : ℚ} (h : 0 ≤ q) (hle : q ≤ 1 / 2) : IsNearestInt q 0 :=
  ⟨by rwa [Int.cast_zero, sub_zero, abs_of_nonneg h], fun _ ↦ Even.zero⟩

theorem IsNearestInt.one_of_half_lt {q : ℚ} (h : 1 / 2 < q) (hlt : q < 1) : IsNearestInt q 1 := by
  have hdistance : |q - (1 : ℤ)| = 1 - q := by
    rw [Int.cast_one, abs_of_neg (by linarith), neg_sub]
  refine ⟨by rw [hdistance]; linarith, fun htie ↦ ?_⟩
  rw [hdistance] at htie
  linarith

section

variable {y z : ℚ} {n n' : ℤ}

theorem not_justAboveHalf_of_isMultiple (h : IsMultiple 28 y) : ¬JustAboveHalf y := by
  obtain ⟨m, rfl⟩ := h
  rintro ⟨hhalf, hclose⟩
  have hpos : (0 : ℚ) < 10 ^ 28 := by positivity
  rw [abs_div, abs_of_pos hpos, ← Int.cast_abs] at hhalf hclose
  rw [lt_div_iff₀ hpos] at hhalf
  rw [div_le_iff₀ hpos] at hclose
  have hlow : 5 * 10 ^ 27 < |m| := by
    exact_mod_cast (by linarith : (5 * 10 ^ 27 : ℚ) < (|m| : ℤ))
  have hhigh : |m| ≤ 5 * 10 ^ 27 := by
    have hlt : ((|m| : ℤ) : ℚ) < 5 * 10 ^ 27 + 1 := by linarith
    exact Int.lt_add_one_iff.mp (by exact_mod_cast hlt)
  exact absurd hlow (not_lt.mpr hhigh)

theorem isMultiple_half : IsMultiple 28 (1 / 2) := ⟨5 * 10 ^ 27, by norm_num⟩

/-- What is just above one half becomes one half if it is rounded to 28 decimals. -/
theorem IsNearestMultiple.eq_half (hz : IsNearestMultiple 28 y z) (hy : 0 ≤ y)
    (h : JustAboveHalf y) : z = 1 / 2 := by
  obtain ⟨hhalf, hclose⟩ := h
  rw [abs_of_nonneg hy] at hhalf hclose
  refine hz.unique ⟨5 * 10 ^ 27, by norm_num, ?_, fun _ ↦ by decide⟩
  rw [abs_le]
  norm_num
  constructor <;> linarith

theorem IsNearestMultiple.half_lt (hz : IsNearestMultiple 28 y z) (h : 1 / 2 + 5 / 10 ^ 29 < y) :
    1 / 2 < z := by
  obtain ⟨m, rfl, hm⟩ := hz
  have hwithin := (abs_le.mp hm.within).2
  norm_num at hwithin h
  have hlow : (5 * 10 ^ 27 : ℚ) < m := by linarith
  rw [lt_div_iff₀ (by norm_num)]
  norm_num at hlow ⊢
  linarith

/-- **Rounding twice.** A number that is rounded to 28 decimals first is then rounded to the nearest
whole number of its own, unless it is just above one half. -/
private theorem nearest_twice_of_nonneg (hy : 0 ≤ y) (hrange : IsMultiple 28 y ∨ y < 4 / 5)
    (hz : IsNearestMultiple 28 y z) (hn : IsNearestInt z n) (hn' : IsNearestInt y n') :
    (¬JustAboveHalf y → n = n') ∧ (JustAboveHalf y → n = 0 ∧ n' = 1) := by
  have hzero : IsNearestMultiple 28 0 0 := .of_isMultiple .zero
  have hlow : 0 ≤ z := hzero.mono hz hy
  rcases hrange with hmultiple | hbelow
  · have hsame : z = y := hz.unique (.of_isMultiple hmultiple)
    exact ⟨fun _ ↦ (hsame ▸ hn).unique hn',
      fun h ↦ absurd h (not_justAboveHalf_of_isMultiple hmultiple)⟩
  have hhigh : z ≤ 4 / 5 := by
    have hbound : IsNearestMultiple 28 (4 / 5) (4 / 5) :=
      .of_isMultiple ⟨8 * 10 ^ 27, by norm_num⟩
    exact hz.mono hbound hbelow.le
  constructor
  · intro hnot
    rcases le_or_gt y (1 / 2) with hle | hlt
    · have hz' : z ≤ 1 / 2 := hz.mono (.of_isMultiple isMultiple_half) hle
      rw [hn.unique (.zero_of_le_half hlow hz'), hn'.unique (.zero_of_le_half hy hle)]
    · have hfar : 1 / 2 + 5 / 10 ^ 29 < y := by
        by_contra hclose
        exact hnot ⟨by rwa [abs_of_nonneg hy], by rw [abs_of_nonneg hy]; exact not_lt.mp hclose⟩
      rw [hn.unique (.one_of_half_lt (hz.half_lt hfar) (by linarith)),
        hn'.unique (.one_of_half_lt hlt (by linarith))]
  · intro habove
    have hz' : z = 1 / 2 := hz.eq_half hy habove
    have hlt := habove.1
    rw [abs_of_nonneg hy] at hlt
    exact ⟨hn.unique (.zero_of_le_half hlow hz'.le), hn'.unique (.one_of_half_lt hlt (by linarith))⟩

theorem nearest_twice (hrange : IsMultiple 28 y ∨ |y| < 4 / 5) (hz : IsNearestMultiple 28 y z)
    (hn : IsNearestInt z n) (hn' : IsNearestInt y n') :
    (¬JustAboveHalf y → n = n') ∧ (JustAboveHalf y → n = 0 ∧ |n'| = 1) := by
  rcases le_total 0 y with hy | hy
  · rw [abs_of_nonneg hy] at hrange
    obtain ⟨hsame, hhalf⟩ := nearest_twice_of_nonneg hy hrange hz hn hn'
    exact ⟨hsame, fun h ↦ ⟨(hhalf h).1, by rw [(hhalf h).2, abs_one]⟩⟩
  · have hrange' : IsMultiple 28 (-y) ∨ -y < 4 / 5 := by
      rw [abs_of_nonpos hy] at hrange
      exact hrange.imp_left fun h ↦ zero_sub y ▸ IsMultiple.zero.sub h
    obtain ⟨hsame, hhalf⟩ :=
      nearest_twice_of_nonneg (neg_nonneg.mpr hy) hrange' hz.neg hn.neg hn'.neg
    rw [justAboveHalf_neg] at hsame hhalf
    refine ⟨fun h ↦ neg_injective (hsame h), fun h ↦ ⟨neg_eq_zero.mp (hhalf h).1, ?_⟩⟩
    rw [← abs_neg, (hhalf h).2, abs_one]

end

end PlanLedger.Decimal

namespace PlanLedger.Formula

open Decimal

variable {k : Nat} {d : Decimal}

/-! ## Whole multiples of powers of ten -/

/-- Rounding to whole multiples rounds the quotient with 28 decimals to a whole number. -/
theorem exists_roundToMultiple? (d : Decimal) (hk : k ≤ 28) :
    ∃ z n, IsNearestMultiple 28 (d.toRat / 10 ^ k) z ∧ IsNearestInt z n ∧
      (Representable (n * 10 ^ k) → ∃ r, roundToMultiple? d k = some r ∧ r.toRat = n * 10 ^ k) := by
  obtain ⟨q, hq, hnearest⟩ := d.exists_div?_powerOfTen hk
  obtain ⟨n, hn, hwhole⟩ := q.isNearestMultiple_roundTo 0
  rw [zpow_natCast, pow_zero, mul_one] at hwhole
  rw [zpow_natCast, pow_zero, div_one] at hn
  refine ⟨q.toRat, n, hnearest, hwhole, fun hrep ↦ ?_⟩
  rw [← hn, ← toRat_powerOfTen hk] at hrep
  obtain ⟨r, hr, hvalue⟩ := mul?_exact hrep
  refine ⟨r, ?_, by rw [hvalue, hn, toRat_powerOfTen]⟩
  rw [roundToMultiple?, ofParts?_powerOfTen hk]
  simp only [Option.bind_eq_bind, Option.bind_some, hq]
  exact hr

/-- A quotient by a power of ten has no more than 28 decimals, or it is below one. -/
theorem isMultiple_or_abs_lt (d : Decimal) (k : Nat) :
    IsMultiple 28 (d.toRat / 10 ^ k) ∨ |d.toRat / 10 ^ k| < 4 / 5 := by
  rcases le_or_gt (d.scale + k) 28 with hle | hgt
  · refine .inl ⟨d.signed * 10 ^ (28 - (d.scale + k)), ?_⟩
    have hpow : (10 : ℚ) ^ 28 = 10 ^ d.scale * 10 ^ k * 10 ^ (28 - (d.scale + k)) := by
      rw [← pow_add, ← pow_add, Nat.add_sub_cancel' hle]
    rw [toRat, div_div, hpow, Int.cast_mul, Int.cast_pow, Int.cast_ofNat,
      mul_div_mul_right _ _ (by positivity)]
  · refine .inr ?_
    have hdigits : (d.mantissa : ℚ) < 2 ^ 96 := by exact_mod_cast d.mantissa_lt
    have hpow : (10 : ℚ) ^ 29 ≤ 10 ^ (d.scale + k) := pow_le_pow_right₀ (by norm_num) hgt
    have hlong : (2 : ℚ) ^ 96 < 4 / 5 * 10 ^ 29 := by norm_num
    rw [abs_div, abs_toRat, abs_of_pos (show (0 : ℚ) < 10 ^ k by positivity), div_div, ← pow_add,
      div_lt_iff₀ (by positivity)]
    linarith

/-! ## The function -/

theorem round_apply {places r : Decimal} {n : ℤ}
    (hdigits : roundingDigits (some (.number places)) = .ok n) (hr : roundNumber d n = .ok r) :
    EagerFunction.round.apply [.number d, .number places] = .ok (.number r) := by
  have hnumber : firstNumber .round [.number d, .number places] = .ok d := rfl
  have hplaces : [Value.number d, .number places][1]? = some (.number places) := rfl
  rw [EagerFunction.apply, hnumber, hplaces, hdigits, ofCalculation, ok_bind, ofCalculation,
    ok_bind, hr]
  rfl

/-- **Multiples.** The nearest whole multiple of `10 ^ k` is found unless the number is just above
one half of `10 ^ k`, which is rounded to zero. -/
theorem roundNumber_neg (hk : k ≤ 28) (hpos : 0 < k) {n : ℤ}
    (hn : IsNearestInt (d.toRat / 10 ^ k) n) (hrep : Representable (n * 10 ^ k)) :
    ∃ r, roundNumber d (-k) = .ok r ∧
      (r.toRat = n * 10 ^ k ↔ ¬JustAboveHalf (d.toRat / 10 ^ k)) ∧
      (JustAboveHalf (d.toRat / 10 ^ k) → r.toRat = 0) := by
  obtain ⟨z, n', hz, hn', hround⟩ := exists_roundToMultiple? d hk
  obtain ⟨hsame, hhalf⟩ := nearest_twice (isMultiple_or_abs_lt d k) hz hn' hn
  have hresult {r : Decimal} (hr : roundToMultiple? d k = some r) : roundNumber d (-k) = .ok r := by
    rw [roundNumber, if_neg (by omega), Int.natAbs_neg, Int.natAbs_natCast, hr]
  by_cases habove : JustAboveHalf (d.toRat / 10 ^ k)
  · obtain ⟨rfl, hone⟩ := hhalf habove
    rw [Int.cast_zero, zero_mul] at hround
    obtain ⟨r, hr, hvalue⟩ := hround ⟨.zero, toRat_zero⟩
    refine ⟨r, hresult hr, iff_of_false (fun heq ↦ ?_) (not_not.mpr habove), fun _ ↦ hvalue⟩
    rw [hvalue, eq_comm, mul_eq_zero, or_iff_left (by positivity), Int.cast_eq_zero] at heq
    rw [heq, abs_zero] at hone
    exact absurd hone (by decide)
  · obtain rfl := hsame habove
    obtain ⟨r, hr, hvalue⟩ := hround hrep
    exact ⟨r, hresult hr, iff_of_true hvalue habove, fun h ↦ absurd h habove⟩

/-- **Rounding to places.** For every number and every whole number of places from -28 to 28 there
is one nearest multiple. If it is the value of a number, `ROUND` has a result, and the result is the
nearest multiple exactly if it is not asked for tens, hundreds and so on of a number just above one
half of such a power of ten; the result for such a number is zero. -/
theorem round_nearest_iff {d places : Decimal} {n : ℤ} (hplaces : places.toRat = n) (hlow : -28 ≤ n)
    (hhigh : n ≤ 28) :
    (∃! multiple, IsNearestMultiple n d.toRat multiple) ∧
    ∀ multiple, IsNearestMultiple n d.toRat multiple → Representable multiple →
      ∃ r, EagerFunction.round.apply [.number d, .number places] = .ok (.number r) ∧
        (r.toRat = multiple ↔ ¬(n < 0 ∧ JustAboveHalf (d.toRat * 10 ^ n))) ∧
        (n < 0 ∧ JustAboveHalf (d.toRat * 10 ^ n) → r.toRat = 0) := by
  refine ⟨existsUnique_isNearestMultiple n d.toRat, fun multiple hmultiple hrep ↦ ?_⟩
  obtain ⟨hwhole, htruncate⟩ := whole_of_toRat_eq hplaces
  have hdigits : roundingDigits (some (.number places)) = .ok n :=
    roundingDigits_eq_ok.mpr ⟨places, rfl, hwhole, by omega, htruncate⟩
  rcases le_or_gt 0 n with hn | hn
  · obtain ⟨m, rfl⟩ := Int.eq_ofNat_of_zero_le hn
    refine ⟨d.roundTo m, round_apply hdigits rfl, iff_of_true ?_ (by omega), by omega⟩
    exact (d.isNearestMultiple_roundTo m).unique hmultiple
  · obtain ⟨k, rfl⟩ : ∃ k : Nat, n = -k := ⟨n.natAbs, by omega⟩
    obtain ⟨m, rfl, hm⟩ := hmultiple
    rw [zpow_neg, zpow_natCast, div_inv_eq_mul] at hrep ⊢
    rw [zpow_neg, zpow_natCast, ← div_eq_mul_inv] at hm
    obtain ⟨r, hr, hiff, hzero⟩ := roundNumber_neg (by omega) (by omega) hm hrep
    rw [← div_eq_mul_inv, and_iff_right hn]
    exact ⟨r, round_apply hdigits hr, hiff, hzero⟩

private def tensPlaces : Decimal := { one with negative := true }

/-- A number below minus seven with as many decimals as `euler`, which are 28. Its tenth has 29. -/
private def belowMinusSeven : Decimal :=
  { euler with
    negative := true
    mantissa := 75000000000000000000000000001
    mantissa_lt := by decide }

/-- A number above five by the last of 28 decimals. -/
private def aboveFive : Decimal :=
  { euler with mantissa := 50000000000000000000000000001, mantissa_lt := by decide }

private theorem toRat_tensPlaces : tensPlaces.toRat = (-1 : ℤ) := by
  norm_num [toRat, signed, tensPlaces, one]

private theorem representable_ten : Representable 10 :=
  ⟨⟨false, 10, 0, by decide, by decide⟩, by norm_num [toRat, signed]⟩

theorem round_nearest_iff_tens :
    tensPlaces.toRat = (-1 : ℤ) ∧ IsNearestMultiple (-1) belowMinusSeven.toRat (-10) ∧
      Representable (-10) ∧ ∃ r, EagerFunction.round.apply
        [.number belowMinusSeven, .number tensPlaces] = .ok (.number r) ∧ r.toRat = -10 := by
  have hvalue : belowMinusSeven.toRat = -(75000000000000000000000000001 / 10 ^ 28) := by
    norm_num [toRat, signed, belowMinusSeven, euler]
  have hnearest : IsNearestMultiple (-1) belowMinusSeven.toRat (-10) := by
    rw [hvalue]
    refine ⟨-1, by norm_num, ?_, fun h ↦ ?_⟩
    · norm_num [abs_le]
    · norm_num [abs_of_pos] at h
  have hrep : Representable (-10) :=
    ⟨⟨true, 10, 0, by decide, by decide⟩, by norm_num [toRat, signed]⟩
  obtain ⟨-, hround⟩ :=
    round_nearest_iff (d := belowMinusSeven) toRat_tensPlaces (by decide) (by decide)
  obtain ⟨r, hr, hiff, -⟩ := hround (-10) hnearest hrep
  refine ⟨toRat_tensPlaces, hnearest, hrep, r, hr, hiff.mpr fun h ↦ ?_⟩
  have hclose := h.2.2
  rw [hvalue] at hclose
  norm_num [abs_of_neg] at hclose

/-- The nearest multiple of ten is ten, but the tenth of the number is rounded to one half and then
to zero. -/
theorem round_misses_multiple :
    IsNearestMultiple (-1) aboveFive.toRat 10 ∧ Representable 10 ∧
      EagerFunction.round.apply [.number aboveFive, .number tensPlaces] = .ok (.number .zero) ∧
      ¬∃ r, EagerFunction.round.apply [.number aboveFive, .number tensPlaces] = .ok (.number r) ∧
        r.toRat = 10 := by
  have hround : EagerFunction.round.apply [.number aboveFive, .number tensPlaces] =
      .ok (.number .zero) := by decide +kernel
  have hvalue : aboveFive.toRat = 50000000000000000000000000001 / 10 ^ 28 := by
    norm_num [toRat, signed, aboveFive, euler]
  refine ⟨?_, representable_ten, hround, ?_⟩
  · rw [hvalue]
    refine ⟨1, by norm_num, ?_, fun h ↦ ?_⟩
    · norm_num [abs_le]
    · norm_num [abs_of_neg] at h
  · rintro ⟨r, hr, hten⟩
    rw [hround] at hr
    cases hr
    rw [toRat_zero] at hten
    norm_num at hten

end PlanLedger.Formula
