import Mathlib.Tactic.NormNum
import PlanLedger.Proofs.Decimal.Exact

/-!
# Nearest multiples

A whole number is the nearest to a rational one if it is at most one half away, and of two that are
one half away it is the even one. Every rational number has exactly one, which grows with the number
and changes its sign with it. Rounding to decimals gives the nearest multiple of a power of ten in
this sense, so that it is a function of the value of a number that is monotone and odd; filling up
with zeros keeps the value and stops only where the digits are full.
-/

namespace PlanLedger.Decimal

/-! ## Nearest whole numbers -/

/-- A whole number is nearest to a rational one, and even if another one is as near. -/
structure IsNearestInt (q : ℚ) (n : ℤ) : Prop where
  within : |q - n| ≤ 1 / 2
  tie : |q - n| = 1 / 2 → Even n

namespace IsNearestInt

variable {q q' : ℚ} {n n' : ℤ}

theorem mono (h : IsNearestInt q n) (h' : IsNearestInt q' n') (hle : q ≤ q') : n ≤ n' := by
  by_contra hlt
  have hstep : (n' : ℚ) + 1 ≤ n := by exact_mod_cast Int.lt_of_not_ge hlt
  have hlow := (abs_le.mp h.within).1
  have hhigh := (abs_le.mp h'.within).2
  -- Both would be one half away, on either side, and of two neighbours one is odd.
  have hq : q - n = -(1 / 2) := by linarith
  have hq' : q' - n' = 1 / 2 := by linarith
  have heven : Even n := h.tie (by rw [hq]; norm_num)
  have heven' : Even n' := h'.tie (by rw [hq']; norm_num)
  have hnext : n = n' + 1 := by exact_mod_cast (by linarith : (n : ℚ) = n' + 1)
  exact absurd heven (hnext ▸ Int.not_even_iff_odd.mpr heven'.add_one)

theorem unique (h : IsNearestInt q n) (h' : IsNearestInt q n') : n = n' :=
  le_antisymm (h.mono h' le_rfl) (h'.mono h le_rfl)

theorem neg (h : IsNearestInt q n) : IsNearestInt (-q) (-n) := by
  have hdistance : |-q - ((-n : ℤ) : ℚ)| = |q - n| := by
    rw [Int.cast_neg, ← neg_sub', abs_neg]
  exact ⟨hdistance ▸ h.within, fun htie ↦ (h.tie (hdistance ▸ htie)).neg⟩

theorem intCast (n : ℤ) : IsNearestInt n n where
  within := by
    rw [sub_self, abs_zero]
    norm_num
  tie h := by
    rw [sub_self, abs_zero] at h
    norm_num at h

theorem divRoundEven (n : Nat) {d : Nat} (hd : 0 < d) :
    IsNearestInt (n / d) (Decimal.divRoundEven n d) := by
  have hpos : (0 : ℚ) < d := Nat.cast_pos.mpr hd
  have hsplit : (n / d : ℚ) = (n / d : Nat) + (n % d : Nat) / d := by
    have hcast : (n : ℚ) = (n / d : Nat) * d + (n % d : Nat) := by
      exact_mod_cast (Nat.div_add_mod' n d).symm
    rw [div_eq_iff hpos.ne', add_mul, div_mul_cancel₀ _ hpos.ne', hcast]
  have hlt := Nat.mod_lt n hd
  rw [hsplit, Decimal.divRoundEven]
  generalize n / d = a at *
  generalize n % d = r at *
  have hhalf : (r / d : ℚ) = 1 / 2 ↔ 2 * r = d := by
    rw [div_eq_div_iff hpos.ne' two_ne_zero, mul_comm, one_mul]
    exact_mod_cast Iff.rfl
  split
  · rename_i hup
    -- The next whole number is the rest of a whole one away.
    have hdistance : |(a + r / d : ℚ) - ((a + 1 : Nat) : ℤ)| = 1 - r / d := by
      have hle : (r / d : ℚ) ≤ 1 := (div_le_one hpos).mpr (by exact_mod_cast hlt.le)
      rw [abs_of_nonpos (by push_cast; linarith)]
      push_cast
      ring
    have hhigh : (1 / 2 : ℚ) ≤ r / d := by
      rw [div_le_div_iff₀ two_pos hpos, one_mul, mul_comm]
      exact_mod_cast (by omega : d ≤ 2 * r)
    refine ⟨by rw [hdistance]; linarith, fun htie ↦ ?_⟩
    rw [hdistance] at htie
    have htwice : 2 * r = d := hhalf.mp (by linarith)
    rw [Int.even_coe_nat, Nat.even_add_one, Nat.not_even_iff]
    omega
  · rename_i hdown
    have hdistance : |(a + r / d : ℚ) - (a : ℤ)| = r / d := by
      rw [Int.cast_natCast, add_sub_cancel_left, abs_of_nonneg (by positivity)]
    have hlow : (r / d : ℚ) ≤ 1 / 2 := by
      rw [div_le_div_iff₀ hpos two_pos, one_mul, mul_comm]
      exact_mod_cast (by omega : 2 * r ≤ d)
    refine ⟨by rw [hdistance]; exact hlow, fun htie ↦ ?_⟩
    have htwice : 2 * r = d := hhalf.mp (hdistance ▸ htie)
    rw [Int.even_coe_nat, Nat.even_iff]
    omega

end IsNearestInt

theorem exists_isNearestInt (q : ℚ) : ∃ n, IsNearestInt q n := by
  have hquotient := IsNearestInt.divRoundEven q.num.natAbs q.den_pos
  rcases le_total 0 q with hq | hq
  · refine ⟨_, (?_ : (q.num.natAbs / q.den : ℚ) = q) ▸ hquotient⟩
    rw [Nat.cast_natAbs, abs_of_nonneg (Rat.num_nonneg.mpr hq), Rat.num_div_den]
  · refine ⟨_, (?_ : -(q.num.natAbs / q.den : ℚ) = q) ▸ hquotient.neg⟩
    rw [Nat.cast_natAbs, abs_of_nonpos (Rat.num_nonpos.mpr hq), Int.cast_neg, neg_div, neg_neg,
      Rat.num_div_den]

/-! ## Nearest multiples -/

/-- A value is the multiple of `10 ^ -places` that is nearest to a rational number, the even one if
there are two. Below zero the places count the tens, hundreds and so on. -/
def IsNearestMultiple (places : ℤ) (q r : ℚ) : Prop :=
  ∃ n : ℤ, r = n / 10 ^ places ∧ IsNearestInt (q * 10 ^ places) n

namespace IsNearestMultiple

variable {places : ℤ} {q q' r r' : ℚ}

theorem mono (h : IsNearestMultiple places q r) (h' : IsNearestMultiple places q' r')
    (hle : q ≤ q') : r ≤ r' := by
  obtain ⟨n, rfl, hn⟩ := h
  obtain ⟨n', rfl, hn'⟩ := h'
  have hpos : (0 : ℚ) < 10 ^ places := zpow_pos (by norm_num) places
  rw [div_le_div_iff_of_pos_right hpos]
  exact_mod_cast hn.mono hn' (mul_le_mul_of_nonneg_right hle hpos.le)

theorem unique (h : IsNearestMultiple places q r) (h' : IsNearestMultiple places q r') : r = r' :=
  le_antisymm (h.mono h' le_rfl) (h'.mono h le_rfl)

theorem neg (h : IsNearestMultiple places q r) : IsNearestMultiple places (-q) (-r) := by
  obtain ⟨n, rfl, hn⟩ := h
  refine ⟨-n, by rw [Int.cast_neg, neg_div], ?_⟩
  rw [neg_mul]
  exact hn.neg

theorem of_isMultiple {places : Nat} (h : IsMultiple places q) : IsNearestMultiple places q q := by
  obtain ⟨n, rfl⟩ := h
  have hpow : (10 : ℚ) ^ places ≠ 0 := by positivity
  refine ⟨n, by rw [zpow_natCast], ?_⟩
  rw [zpow_natCast, div_mul_cancel₀ _ hpow]
  exact .intCast n

end IsNearestMultiple

theorem existsUnique_isNearestMultiple (places : ℤ) (q : ℚ) :
    ∃! r, IsNearestMultiple places q r := by
  obtain ⟨n, hn⟩ := exists_isNearestInt (q * 10 ^ places)
  exact ⟨n / 10 ^ places, ⟨n, rfl, hn⟩, fun r hr ↦ hr.unique ⟨n, rfl, hn⟩⟩

/-! ## Rounding to decimals -/

/-- The sign stays with the digits that are left, unless these are zero. -/
theorem toRat_roundTo_of_lt {d : Decimal} {places : Nat} (hlt : places < d.scale) :
    (d.roundTo places).toRat =
      if d.negative = true then
        -(divRoundEven d.mantissa (10 ^ (d.scale - places)) / 10 ^ places : ℚ)
      else divRoundEven d.mantissa (10 ^ (d.scale - places)) / 10 ^ places := by
  rw [toRat_eq_ite, roundTo, dif_pos hlt]
  by_cases hzero : divRoundEven d.mantissa (10 ^ (d.scale - places)) = 0
  · simp [hzero]
  · simp [hzero]

/-- **Rounding.** A number is rounded to the nearest multiple, ties to even. -/
theorem isNearestMultiple_roundTo (d : Decimal) (places : Nat) :
    IsNearestMultiple places d.toRat (d.roundTo places).toRat := by
  by_cases hlt : places < d.scale
  · have hdigits := IsNearestInt.divRoundEven d.mantissa (pow_ten_pos (d.scale - places))
    have hquotient : (d.mantissa / 10 ^ d.scale : ℚ) * 10 ^ places =
        d.mantissa / (10 ^ (d.scale - places) : Nat) := by
      have hpow : (10 : ℚ) ^ d.scale = 10 ^ (d.scale - places) * 10 ^ places := by
        rw [← pow_add, Nat.sub_add_cancel hlt.le]
      rw [hpow, ← div_div, div_mul_cancel₀ _ (by positivity), Nat.cast_pow, Nat.cast_ofNat]
    rw [IsNearestMultiple, zpow_natCast, toRat_roundTo_of_lt hlt, toRat_eq_ite]
    split
    · refine ⟨_, ?_, by rw [neg_mul, hquotient]; exact hdigits.neg⟩
      rw [Int.cast_neg, Int.cast_natCast, neg_div]
    · refine ⟨_, ?_, by rw [hquotient]; exact hdigits⟩
      rw [Int.cast_natCast]
  · rw [roundTo, dif_neg hlt]
    exact .of_isMultiple (isMultiple_toRat (Nat.le_of_not_lt hlt))

/-! ## Filling up with zeros -/

theorem padding_of_lt {m room : Nat} (h : m * 10 ^ room < 2 ^ 96) : padding m room = room := by
  cases room with
  | zero => rfl
  | succ room => rw [padding, if_pos h]

/-- Digits that were filled up as far as possible have no place for another zero. -/
theorem padding_mul_pow (m room : Nat) :
    padding (m * 10 ^ padding m room) (room - padding m room) = 0 := by
  rcases Nat.eq_or_lt_of_le (padding_le m room) with heq | hlt
  · rw [heq, Nat.sub_self, padding]
  · have hlarge := le_of_padding_lt hlt
    rw [Nat.pow_add, Nat.pow_one, ← Nat.mul_assoc] at hlarge
    generalize m * 10 ^ padding m room = m' at *
    generalize room - padding m room = room'
    -- Even one zero more would be too many.
    induction room' with
    | zero => rfl
    | succ room' ih =>
      have hmore : m' * 10 ≤ m' * 10 ^ (room' + 1) :=
        Nat.mul_le_mul_left m' (Nat.le_self_pow (Nat.succ_ne_zero room') 10)
      rw [padding, if_neg (by omega), ih]

/-- What was filled up once is not filled up again. -/
theorem padTo_padTo (d : Decimal) (places : Nat) :
    (d.padTo places).padTo places = d.padTo places := by
  have hnone : padding (d.padTo places).mantissa
      (Nat.min places 28 - (d.padTo places).scale) = 0 := by
    rw [padTo, Nat.sub_add_eq]
    exact padding_mul_pow _ _
  rw [padTo]
  simp only [hnone, Nat.pow_zero, Nat.mul_one, Nat.add_zero]

theorem roundTo_of_scale_le {d : Decimal} {places : Nat} (h : d.scale ≤ places) :
    d.roundTo places = d := by
  rw [roundTo, dif_neg (Nat.not_lt_of_le h)]

theorem scale_padTo {d : Decimal} {places : Nat} (hscale : d.scale ≤ places)
    (hplaces : places ≤ 28) (h : |d.toRat| * 10 ^ places < 2 ^ 96) :
    (d.padTo places).scale = places := by
  have hdigits : d.mantissa * 10 ^ (places - d.scale) < 2 ^ 96 := by
    have hpow : (10 : ℚ) ^ places = 10 ^ d.scale * 10 ^ (places - d.scale) := by
      rw [← pow_add, Nat.add_sub_cancel' hscale]
    rw [abs_toRat, hpow, ← mul_assoc, div_mul_cancel₀ _ (by positivity)] at h
    exact_mod_cast h
  have hmin : Nat.min places 28 = places := Nat.min_eq_left hplaces
  rw [padTo]
  dsimp only
  rw [hmin, padding_of_lt hdigits, Nat.add_sub_cancel' hscale]

/-! ## Results -/

/-- **Results.** The result of a number with some places is the nearest multiple, ties to even, and
the number itself if it has no more places. Numbers of greater value have results of no smaller
value, the result of the opposite number is the opposite value, and a result is its own result.
Wherever its digits fit, a result has all places. -/
theorem toPlaces_nearest (places : Nat) :
    (∀ d : Decimal, IsNearestMultiple places d.toRat (d.toPlaces places).toRat) ∧
    (∀ d : Decimal, d.scale ≤ places → (d.toPlaces places).toRat = d.toRat) ∧
    (∀ a b : Decimal, a.toRat ≤ b.toRat → (a.toPlaces places).toRat ≤ (b.toPlaces places).toRat) ∧
    (∀ d : Decimal, (d.neg.toPlaces places).toRat = -(d.toPlaces places).toRat) ∧
    (∀ d : Decimal, (d.toPlaces places).toPlaces places = d.toPlaces places) ∧
    (places ≤ 28 → ∀ d : Decimal, |(d.toPlaces places).toRat| * 10 ^ places < 2 ^ 96 →
      (d.toPlaces places).scale = places) := by
  have hnearest (d : Decimal) : IsNearestMultiple places d.toRat (d.toPlaces places).toRat := by
    rw [toPlaces, toRat_padTo]
    exact d.isNearestMultiple_roundTo places
  refine ⟨hnearest, fun d hd ↦ ?_, fun a b hle ↦ (hnearest a).mono (hnearest b) hle,
    fun d ↦ ?_, fun d ↦ ?_, fun hplaces d hfits ↦ ?_⟩
  · exact toRat_toPlaces_of_isMultiple (isMultiple_toRat hd)
  · have hneg := hnearest d.neg
    rw [toRat_neg] at hneg
    exact hneg.unique (hnearest d).neg
  · rw [toPlaces, roundTo_of_scale_le (d.scale_toPlaces_le places), toPlaces, padTo_padTo]
  · rw [toPlaces, toRat_padTo] at hfits
    exact scale_padTo (d.scale_roundTo_le places) hplaces hfits

/-- A negative number of as many digits as there can be, halfway between two multiples. -/
private def longest : Decimal := ⟨true, 79228162514264337593543950335, 5, by decide, by decide⟩

theorem toPlaces_nearest_longest :
    4 ≤ 28 ∧ |(longest.toPlaces 4).toRat| * 10 ^ 4 < 2 ^ 96 ∧
      (longest.toPlaces 4).toRat = -7922816251426433759354395034 / 10 ^ 4 ∧
      (longest.toPlaces 4).scale = 4 := by
  obtain ⟨-, -, -, -, -, hscale⟩ := toPlaces_nearest 4
  have hresult : longest.toPlaces 4 =
      ⟨true, 7922816251426433759354395034, 4, by decide, by decide⟩ := by decide
  have hvalue : (longest.toPlaces 4).toRat = -7922816251426433759354395034 / 10 ^ 4 := by
    rw [hresult, toRat_eq_ite]
    norm_num
  have hfits : |(longest.toPlaces 4).toRat| * 10 ^ 4 < 2 ^ 96 := by
    rw [hvalue]
    norm_num [abs_of_neg]
  exact ⟨by decide, hfits, hvalue, hscale (by decide) longest hfits⟩

end PlanLedger.Decimal
