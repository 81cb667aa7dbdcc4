import PlanLedger.Proofs.Decimal.Quotient
import PlanLedger.Proofs.Decimal.Value

/-!
# Exact results

Sums, differences, products and quotients are rounded only where they have to be: wherever the exact
result is the value of some number, the operation gives that value. The result may be written with
other decimals. Rounding to decimals keeps the value of a number that has no more of them.

For a sum or a product this is what dropping the fewest decimals comes to. Long division finds the
decimals one after the other; what carries the induction is that the digits so far and the remainder
still make up the exact quotient, so that the division cannot run out of digits before it ends.
-/

namespace PlanLedger.Decimal

/-! ## Values that numbers have -/

def Representable (q : ℚ) : Prop := ∃ d : Decimal, d.toRat = q

def IsMultiple (places : Nat) (q : ℚ) : Prop := ∃ n : ℤ, q = n / 10 ^ places

theorem natAbs_signed (d : Decimal) : d.signed.natAbs = d.mantissa := by
  rw [signed]
  split <;> simp

theorem toRat_eq_ite (d : Decimal) : d.toRat =
    if d.negative = true then -(d.mantissa / 10 ^ d.scale : ℚ) else d.mantissa / 10 ^ d.scale := by
  rw [toRat, signed]
  split
  · push_cast
    exact neg_div _ _
  · rw [Int.cast_natCast]

theorem abs_toRat (d : Decimal) : |d.toRat| = d.mantissa / 10 ^ d.scale := by
  rw [toRat_eq_ite]
  split
  · rw [abs_neg, abs_of_nonneg (by positivity)]
  · rw [abs_of_nonneg (by positivity)]

theorem representable_toRat (d : Decimal) : Representable d.toRat := ⟨d, rfl⟩

theorem toRat_zero : zero.toRat = 0 := by simp [toRat, signed, zero]

variable {places m s : Nat} {n : ℤ} {q : ℚ} {a b d : Decimal}

theorem toRat_eq_of_digits (hsign : d.negative = decide (n < 0))
    (hdigits : d.mantissa * 10 ^ s = n.natAbs * 10 ^ d.scale) : d.toRat = n / 10 ^ s := by
  have hquotient : (d.mantissa / 10 ^ d.scale : ℚ) = |(n : ℚ)| / 10 ^ s := by
    rw [div_eq_div_iff (by positivity) (by positivity), ← Int.cast_abs, ← Nat.cast_natAbs]
    exact_mod_cast hdigits
  rw [toRat_eq_ite, hquotient, hsign]
  by_cases hneg : n < 0
  · rw [if_pos (decide_eq_true hneg), abs_of_neg (Int.cast_lt_zero.mpr hneg), neg_div, neg_neg]
  · rw [if_neg (by simpa using hneg), abs_of_nonneg (Int.cast_nonneg_iff.mpr (not_lt.mp hneg))]

theorem representable_of_natAbs_lt (hn : n.natAbs < 2 ^ 96) (hs : s ≤ 28) :
    Representable (n / 10 ^ s) :=
  ⟨⟨decide (n < 0), n.natAbs, s, hn, hs⟩, toRat_eq_of_digits rfl rfl⟩

theorem representable_iff : Representable q ↔ ∃ s < 29, OnGrid s q := by
  constructor
  · rintro ⟨d, rfl⟩
    refine ⟨d.scale, Nat.lt_succ_of_le d.scale_le, d.signed, ?_, rfl⟩
    rw [natAbs_signed]
    exact d.mantissa_lt
  · rintro ⟨s, hs, n, hn, rfl⟩
    exact representable_of_natAbs_lt hn (Nat.le_of_lt_succ hs)

instance : DecidablePred Representable := fun _ ↦ decidable_of_iff' _ representable_iff

theorem Representable.exists_digits (h : Representable (n / 10 ^ s)) :
    ∃ m t, m < 2 ^ 96 ∧ t ≤ 28 ∧ n.natAbs * 10 ^ t = m * 10 ^ s := by
  obtain ⟨d, hd⟩ := h
  refine ⟨d.mantissa, d.scale, d.mantissa_lt, d.scale_le, ?_⟩
  rw [toRat, div_eq_div_iff (by positivity) (by positivity)] at hd
  have hint : d.signed * 10 ^ s = n * 10 ^ d.scale := by exact_mod_cast hd
  have hnat := congrArg Int.natAbs hint
  rw [Int.natAbs_mul, Int.natAbs_mul, Int.natAbs_pow, Int.natAbs_pow, natAbs_signed] at hnat
  exact hnat.symm

/-! ### Multiples -/

theorem isMultiple_iff : IsMultiple places q ↔ (q * 10 ^ places).den = 1 := by
  have hpow : (10 : ℚ) ^ places ≠ 0 := by positivity
  constructor
  · rintro ⟨n, rfl⟩
    rw [div_mul_cancel₀ _ hpow, Rat.den_intCast]
  · intro hden
    exact ⟨_, by rw [Rat.coe_int_num_of_den_eq_one hden, mul_div_cancel_right₀ _ hpow]⟩

instance : DecidablePred (IsMultiple places) := fun _ ↦ decidable_of_iff' _ isMultiple_iff

theorem isMultiple_toRat (h : d.scale ≤ places) : IsMultiple places d.toRat :=
  ⟨d.signedAt places, toRat_eq_div h⟩

theorem IsMultiple.zero : IsMultiple places 0 := ⟨0, by simp⟩

theorem IsMultiple.add {q' : ℚ} (h : IsMultiple places q) (h' : IsMultiple places q') :
    IsMultiple places (q + q') := by
  obtain ⟨n, rfl⟩ := h
  obtain ⟨n', rfl⟩ := h'
  exact ⟨n + n', by rw [Int.cast_add, add_div]⟩

theorem IsMultiple.sub {q' : ℚ} (h : IsMultiple places q) (h' : IsMultiple places q') :
    IsMultiple places (q - q') := by
  obtain ⟨n, rfl⟩ := h
  obtain ⟨n', rfl⟩ := h'
  exact ⟨n - n', by rw [Int.cast_sub, sub_div]⟩

/-- A value on a grid is that of a number, if it does not take more than 28 decimals. -/
theorem OnGrid.representable (h : OnGrid places q) (hq : IsMultiple (Nat.min places 28) q) :
    Representable q := by
  obtain ⟨n, rfl⟩ := hq
  exact representable_of_natAbs_lt (h.natAbs_lt (Nat.min_le_left _ _)) (Nat.min_le_right _ _)

/-! ## Dropping decimals -/

theorem firstDrop?_le {drop : Nat → Nat} {limit k tries i j : Nat}
    (h : firstDrop? drop limit k tries = some j) (hi : k ≤ i) (hdrop : drop i < limit) : j ≤ i := by
  induction tries generalizing k with
  | zero => cases h
  | succ tries ih =>
    rw [firstDrop?] at h
    split at h
    · cases h
      exact hi
    · rename_i hlarge
      rcases Nat.eq_or_lt_of_le hi with rfl | hlt
      · exact absurd hdrop hlarge
      · exact ih h hlt

theorem dropDigits_mul_pow (m k : Nat) : dropDigits (m * 10 ^ k) k = m := by
  rw [dropDigits_eq, divRoundEven_mul_self m (pow_ten_pos k)]

/-- **Fitting without rounding.** A result that can be written with fewer digits is brought into the
limits by dropping zeros. -/
theorem fit?_of_digits {m' s' : Nat} (negative : Bool) (hm' : m' < 2 ^ 96) (hs' : s' ≤ 28)
    (h : m * 10 ^ s' = m' * 10 ^ s) : ∃ d, fit? negative m s = some d ∧ d.negative = negative ∧
      d.mantissa * 10 ^ s = m * 10 ^ d.scale := by
  rw [fit?, fitBy?]
  by_cases hfits : m < 2 ^ 96 ∧ s ≤ 28
  · rw [if_pos hfits, ofParts?, dif_pos hfits]
    exact ⟨_, rfl, rfl, rfl⟩
  · have hle : s' ≤ s := by
      -- With more decimals the digits would only be longer.
      by_contra hlt
      have hpow : 10 ^ s' = 10 ^ (s' - s) * 10 ^ s := by
        rw [← Nat.pow_add]
        congr 1
        omega
      rw [hpow, ← Nat.mul_assoc] at h
      have hdigits := Nat.eq_of_mul_eq_mul_right (pow_ten_pos s) h
      have hmle := Nat.le_mul_of_pos_right m (pow_ten_pos (s' - s))
      omega
    obtain ⟨k, rfl⟩ := Nat.exists_eq_add_of_le hle
    have hm : m = m' * 10 ^ k := by
      refine Nat.eq_of_mul_eq_mul_right (pow_ten_pos s') ?_
      rw [h, Nat.pow_add]
      ring
    have hdropped : dropDigits m k < 2 ^ 96 := by rwa [hm, dropDigits_mul_pow]
    rw [if_neg hfits, dropUntil?]
    cases hfirst :
      firstDrop? (dropDigits m) (2 ^ 96) (s' + k - 28) (s' + k + 1 - (s' + k - 28)) with
    | none =>
      have hlarge := firstDrop?_eq_none.mp hfirst k (by omega) (by omega)
      omega
    | some j =>
      obtain ⟨hlt, hleast, -⟩ := firstDrop?_eq_some hfirst
      obtain ⟨i, rfl⟩ := Nat.exists_eq_add_of_le (firstDrop?_le hfirst (by omega) hdropped)
      have hsplit : m = m' * 10 ^ i * 10 ^ j := by
        rw [hm, Nat.pow_add]
        ring
      have hdigits : dropDigits m j = m' * 10 ^ i := by rw [hsplit, dropDigits_mul_pow]
      rw [Option.map_some]
      dsimp only
      rw [ofParts?, dif_pos ⟨hlt, by omega⟩]
      refine ⟨_, rfl, rfl, ?_⟩
      dsimp only
      rw [hdigits, hsplit, (by omega : s' + (j + i) = j + (s' + (j + i) - j)), Nat.pow_add]
      simp only [Nat.add_sub_cancel_left]
      ring

/-- An exact result that is the value of a number is brought into the limits with that value. -/
theorem fit?_exact {negative : Bool} (hsign : negative = decide (n < 0))
    (h : Representable (n / 10 ^ s)) :
    ∃ c, fit? negative n.natAbs s = some c ∧ c.toRat = n / 10 ^ s := by
  obtain ⟨m, t, hm, ht, hdigits⟩ := h.exists_digits
  obtain ⟨c, hc, hnegative, hvalue⟩ := fit?_of_digits negative hm ht hdigits
  exact ⟨c, hc, toRat_eq_of_digits (hnegative.trans hsign) hvalue⟩

/-! ## Sums and products -/

/-- **Exact sums.** A sum that is the value of a number is not rounded. -/
theorem add?_exact (h : Representable (a.toRat + b.toRat)) :
    ∃ c, a.add? b = some c ∧ c.toRat = a.toRat + b.toRat := by
  rw [add?]
  by_cases hza : a.isZero = true
  · exact ⟨b, if_pos hza, by rw [isZero_iff.mp hza, zero_add]⟩
  by_cases hzb : b.isZero = true
  · exact ⟨a, by rw [if_neg hza, if_pos hzb], by rw [isZero_iff.mp hzb, add_zero]⟩
  rw [if_neg hza, if_neg hzb]
  have hsum : a.toRat + b.toRat = (a.signedAt (Nat.max a.scale b.scale) +
      b.signedAt (Nat.max a.scale b.scale) : ℤ) / 10 ^ Nat.max a.scale b.scale := by
    rw [toRat_eq_div (Nat.le_max_left a.scale b.scale),
      toRat_eq_div (Nat.le_max_right a.scale b.scale), Int.cast_add, add_div]
  rw [hsum] at h ⊢
  exact fit?_exact rfl h

/-- **Exact differences.** A difference that is the value of a number is not rounded. -/
theorem sub?_exact (h : Representable (a.toRat - b.toRat)) :
    ∃ c, a.sub? b = some c ∧ c.toRat = a.toRat - b.toRat := by
  rw [sub?]
  by_cases hza : a.isZero = true
  · rw [if_pos hza, isZero_iff.mp hza]
    by_cases hzb : b.isZero = true
    · exact ⟨b, by rw [if_pos hzb], by rw [isZero_iff.mp hzb, sub_zero]⟩
    · exact ⟨b.neg, by rw [if_neg hzb], by rw [toRat_neg, zero_sub]⟩
  · rw [if_neg hza]
    rw [sub_eq_add_neg, ← toRat_neg] at h ⊢
    exact add?_exact h

theorem mantissa_pos (h : d.isZero = false) : 0 < d.mantissa :=
  Nat.pos_of_ne_zero (beq_eq_false_iff_ne.mp h)

private theorem decide_signed_mul_signed_lt (ha : a.isZero = false) (hb : b.isZero = false) :
    (a.negative != b.negative) = decide (a.signed * b.signed < 0) := by
  have hpos : (0 : ℤ) < a.mantissa * b.mantissa := by
    exact_mod_cast Nat.mul_pos (mantissa_pos ha) (mantissa_pos hb)
  rw [signed, signed]
  cases a.negative <;> cases b.negative <;> simp <;> omega

private theorem toRat_mul_toRat (a b : Decimal) :
    a.toRat * b.toRat = (a.signed * b.signed : ℤ) / 10 ^ (a.scale + b.scale) := by
  rw [toRat, toRat, div_mul_div_comm, pow_add, Int.cast_mul]

private theorem natAbs_signed_mul_signed (a b : Decimal) :
    (a.signed * b.signed).natAbs = a.mantissa * b.mantissa := by
  rw [Int.natAbs_mul, natAbs_signed, natAbs_signed]

/-- A product of short digits that is the value of a number does not have too many decimals. -/
private theorem scale_add_scale_le (ha : 0 < a.mantissa) (hb : 0 < b.mantissa)
    (hshort : a.mantissa < 2 ^ 32 ∧ b.mantissa < 2 ^ 32)
    (h : Representable (a.toRat * b.toRat)) : a.scale + b.scale ≤ 47 := by
  rw [toRat_mul_toRat] at h
  obtain ⟨m, t, -, ht, hdigits⟩ := h.exists_digits
  rw [natAbs_signed_mul_signed] at hdigits
  have hproduct : a.mantissa * b.mantissa ≤ 2 ^ 32 * 2 ^ 32 :=
    Nat.mul_le_mul hshort.1.le hshort.2.le
  have hm : 0 < m := by
    refine Nat.pos_of_ne_zero fun hzero ↦ ?_
    rw [hzero, Nat.zero_mul] at hdigits
    exact absurd hdigits (Nat.mul_pos (Nat.mul_pos ha hb) (pow_ten_pos t)).ne'
  by_contra hfar
  -- A product with that many decimals would have more than twenty digits.
  have hlarge : 10 ^ 48 ≤ 2 ^ 32 * 2 ^ 32 * 10 ^ 28 := by
    calc 10 ^ 48 ≤ 10 ^ (a.scale + b.scale) := Nat.pow_le_pow_right (by decide) (by omega)
      _ ≤ m * 10 ^ (a.scale + b.scale) := Nat.le_mul_of_pos_left _ hm
      _ = a.mantissa * b.mantissa * 10 ^ t := hdigits.symm
      _ ≤ 2 ^ 32 * 2 ^ 32 * 10 ^ 28 :=
        Nat.mul_le_mul hproduct (Nat.pow_le_pow_right (by decide) ht)
  exact absurd hlarge (by decide)

/-- **Exact products.** A product that is the value of a number is not rounded. -/
theorem mul?_exact (h : Representable (a.toRat * b.toRat)) :
    ∃ c, a.mul? b = some c ∧ c.toRat = a.toRat * b.toRat := by
  rw [mul?]
  cases hza : a.isZero with
  | true => exact ⟨zero, rfl, by rw [isZero_iff.mp hza, zero_mul, toRat_zero]⟩
  | false =>
    cases hzb : b.isZero with
    | true => exact ⟨zero, rfl, by rw [isZero_iff.mp hzb, mul_zero, toRat_zero]⟩
    | false =>
      rw [if_neg (by decide)]
      have hfit := h
      rw [toRat_mul_toRat] at hfit
      obtain ⟨c, hc, hvalue⟩ := fit?_exact (decide_signed_mul_signed_lt hza hzb) hfit
      rw [← toRat_mul_toRat] at hvalue
      rw [natAbs_signed_mul_signed] at hc
      simp only [hc, Option.map_some]
      split_ifs with hshort hfar
      · have hscale := scale_add_scale_le (mantissa_pos hza) (mantissa_pos hzb) hshort h
        omega
      · -- The product is not zero, so no sign is taken away.
        have hnonzero : c.isZero = false := by
          rw [Bool.eq_false_iff, Ne, isZero_iff, hvalue, mul_eq_zero, ← isZero_iff, ← isZero_iff,
            hza, hzb]
          decide
        exact ⟨c, by rw [unsignedZero, hnonzero]; rfl, hvalue⟩
      · exact ⟨c, rfl, hvalue⟩

/-! ## Quotients -/

section

variable {digits j divisor r room : Nat}

private theorem eq_mul_pow_sub {x y i j : Nat} (h : x * 10 ^ i = y * 10 ^ j) (hle : j ≤ i) :
    y = x * 10 ^ (i - j) := by
  obtain ⟨k, rfl⟩ := Nat.exists_eq_add_of_le hle
  refine Nat.eq_of_mul_eq_mul_right (pow_ten_pos j) ?_
  rw [← h, Nat.add_sub_cancel_left, Nat.pow_add]
  ring

/-- As long as there is a remainder, the digits found so far are not all digits of the quotient. -/
private theorem lt_of_rest (hr : r < divisor) (hrest : r ≠ 0)
    (h : (m * divisor + r) * 10 ^ room = digits * 10 ^ j * divisor) :
    j < room ∧ m * 10 ^ (room - j) < digits := by
  have h' : (m * divisor + r) * 10 ^ room = digits * divisor * 10 ^ j := by
    rw [h]
    ring
  have hlt : j < room := by
    by_contra hle
    have heq := eq_mul_pow_sub h'.symm (Nat.le_of_not_lt hle)
    have hdvd : divisor ∣ r := by
      rw [← Nat.dvd_add_right (Nat.dvd_mul_left divisor m), heq]
      exact Dvd.dvd.mul_right (Nat.dvd_mul_left divisor digits) _
    exact absurd (Nat.le_of_dvd (Nat.pos_of_ne_zero hrest) hdvd) (Nat.not_le_of_lt hr)
  refine ⟨hlt, Nat.lt_of_mul_lt_mul_right (a := divisor) ?_⟩
  calc m * 10 ^ (room - j) * divisor
      < m * 10 ^ (room - j) * divisor + r * 10 ^ (room - j) :=
        Nat.lt_add_of_pos_right (Nat.mul_pos (Nat.pos_of_ne_zero hrest) (pow_ten_pos _))
    _ = (m * divisor + r) * 10 ^ (room - j) := by ring
    _ = digits * divisor := (eq_mul_pow_sub h' hlt.le).symm

/-- Digits that are too many without a remainder are all digits of the quotient and more zeros, of
which one is dropped. -/
private theorem dropOverflow_of_exact (hdigits : digits < 2 ^ 96) (hm : ¬m < 2 ^ 96)
    (h : m * 10 ^ room = digits * 10 ^ j) :
    room < j ∧ dropOverflow m false * 10 ^ (room + 1) = digits * 10 ^ j := by
  have hlt : room < j := by
    by_contra hle
    have heq := eq_mul_pow_sub h (Nat.le_of_not_lt hle)
    have hmle := Nat.le_mul_of_pos_right m (pow_ten_pos (room - j))
    omega
  refine ⟨hlt, ?_⟩
  obtain ⟨k, rfl⟩ := Nat.exists_eq_add_of_lt hlt
  have hzeros : m = digits * 10 ^ k * 10 := by
    rw [eq_mul_pow_sub h.symm hlt.le, (by omega : room + k + 1 - room = k + 1), Nat.pow_succ,
      Nat.mul_assoc]
  have hlast : m % 10 = 0 := by omega
  rw [dropOverflow, hlast, if_neg (by simp), (by omega : m / 10 = digits * 10 ^ k),
    (by omega : room + k + 1 = room + 1 + k), Nat.pow_add 10 (room + 1) k]
  ring

/-- A quotient without a remainder is extended by zeros as far as its decimals require. -/
private theorem divideLoop_zero_of_exact (hdigits : digits < 2 ^ 96) (hj : j ≤ 28) (inexact : Bool)
    (h : m * 10 ^ room = digits * 10 ^ j) (hm : m < 2 ^ 96) :
    ∃ m' s', divideLoop divisor m 0 room inexact = some (m', s', inexact) ∧
      m' < 2 ^ 96 ∧ s' ≤ 28 ∧ m' * 10 ^ (28 - s') = digits * 10 ^ j := by
  induction room using Nat.strong_induction_on generalizing m with
  | _ room ih =>
  rw [divideLoop, if_pos rfl]
  by_cases hroom : room ≤ 28
  · rw [if_pos hroom]
    exact ⟨m, 28 - room, rfl, hm, Nat.sub_le _ _, by rwa [Nat.sub_sub_self hroom]⟩
  · rw [if_neg hroom]
    dsimp only
    have hk : Nat.min 9 (room - 28) ≤ room - 28 := Nat.min_le_right _ _
    have hpos : 0 < Nat.min 9 (room - 28) := Nat.lt_min.mpr ⟨by decide, by omega⟩
    generalize Nat.min 9 (room - 28) = k at hk hpos
    have hkept : m * 10 ^ k < 2 ^ 96 := by
      refine lt_of_le_of_lt ?_ hdigits
      rw [eq_mul_pow_sub h (by omega)]
      exact Nat.mul_le_mul_left m (Nat.pow_le_pow_right (by decide) (by omega))
    rw [if_pos hkept]
    refine ih (room - k) (by omega) ?_ hkept
    rw [← h, Nat.mul_assoc, ← Nat.pow_add, Nat.add_sub_cancel' (by omega)]

/-- A quotient of which there is more to come is extended, and as far as its decimals require. -/
private theorem extension_of_more (hj : j ≤ 28) (hlt : j < room)
    (h : m * 10 ^ (room - j) < 2 ^ 96) : extension m room ≠ 0 ∧
      ¬(extension m room < 9 ∧ 28 < room - extension m room) := by
  have hplace {k : Nat} (hk : k ≤ room - j) : m * 10 ^ k < 2 ^ 96 :=
    (Nat.mul_le_mul_left m (Nat.pow_le_pow_right (by decide) hk)).trans_lt h
  constructor
  · intro hnone
    have hnext := hplace (k := 1) (by omega)
    rcases le_or_eq_of_extension_eq_zero hnone with hlarge | hzero <;> omega
  · rintro ⟨hshort, hfar⟩
    have hless : extension m room < Nat.min 9 room := Nat.lt_min.mpr ⟨hshort, by omega⟩
    have hlarge := le_of_padding_lt hless
    rw [← extension] at hlarge
    exact absurd (hplace (by omega)) (Nat.not_lt_of_le hlarge)

/-- **Exact long division.** If the digits so far and the remainder, with all decimals to come, are
the divisor times digits that fit, the division ends with digits of the same value. -/
theorem divideLoop_of_exact (hdigits : digits < 2 ^ 96) (hj : j ≤ 28) (inexact : Bool)
    (h : (m * divisor + r) * 10 ^ room = digits * 10 ^ j * divisor) (hr : r < divisor)
    (hm : m < 2 ^ 96) :
    ∃ m' s' inexact', divideLoop divisor m r room inexact = some (m', s', inexact') ∧
      m' < 2 ^ 96 ∧ s' ≤ 28 ∧ m' * 10 ^ (28 - s') = digits * 10 ^ j := by
  have hpos : 0 < divisor := by omega
  have hwhole {m room : Nat} (h : (m * divisor + 0) * 10 ^ room = digits * 10 ^ j * divisor) :
      m * 10 ^ room = digits * 10 ^ j := by
    refine Nat.eq_of_mul_eq_mul_right hpos ?_
    rw [← h]
    ring
  induction room using Nat.strong_induction_on generalizing m r inexact with
  | _ room ih =>
  by_cases hrest : r = 0
  · subst hrest
    obtain ⟨m', s', hloop, hexact⟩ := divideLoop_zero_of_exact hdigits hj inexact (hwhole h) hm
    exact ⟨m', s', inexact, hloop, hexact⟩
  obtain ⟨hlt, hmore⟩ := lt_of_rest hr hrest h
  obtain ⟨hsome, hguard⟩ := extension_of_more hj hlt (hmore.trans hdigits)
  rw [divideLoop, if_neg hrest]
  dsimp only
  rw [if_neg hguard, if_neg hsome]
  have hle : extension m room ≤ Nat.min 9 room := padding_le m _
  have hkept : m * 10 ^ extension m room < 2 ^ 96 := mul_padding_lt hm _
  obtain ⟨hnine, hleft⟩ := Nat.le_min.mp hle
  generalize extension m room = k at *
  -- With the next decimals the digits and the remainder still make up the quotient.
  have hnext : ((m * 10 ^ k + r * 10 ^ k / divisor) * divisor + r * 10 ^ k % divisor) *
      10 ^ (room - k) = digits * 10 ^ j * divisor := by
    rw [← extend_eq rfl, Nat.mul_assoc, ← Nat.pow_add, Nat.add_sub_cancel' hleft, h]
  have hadded := added_digits_le hr hnine
  have hlater := Nat.mod_lt (r * 10 ^ k) hpos
  by_cases hfits : m * 10 ^ k + r * 10 ^ k / divisor < 2 ^ 96
  · rw [if_pos hfits]
    exact ih (room - k) (by omega) true hnext hlater hfits
  · have hdone : r * 10 ^ k % divisor = 0 := by
      by_contra hrest'
      have hmore' := (lt_of_rest hlater hrest' hnext).2
      exact hfits ((Nat.le_mul_of_pos_right _ (pow_ten_pos _)).trans_lt (hmore'.trans hdigits))
    rw [hdone] at hnext
    obtain ⟨hroom, hdropped⟩ := dropOverflow_of_exact hdigits hfits (hwhole hnext)
    rw [if_neg hfits, if_pos (by omega), hdone]
    refine ⟨_, _, _, rfl, ?_, by omega, ?_⟩
    · rw [dropOverflow]
      split <;> omega
    · rw [(by omega : 28 - (27 - (room - k)) = room - k + 1)]
      exact hdropped

end

/-- The digits of an exact quotient, at the decimals with which the division begins. -/
private theorem mantissa_mul_pow_of_toRat_eq (hb : b.isZero = false)
    (h : d.toRat = a.toRat / b.toRat) : a.mantissa * 10 ^ (28 + b.scale - a.scale) =
      d.mantissa * 10 ^ (28 - d.scale) * b.mantissa := by
  have hbpos : (0 : ℚ) < b.mantissa := by exact_mod_cast mantissa_pos hb
  have habs := congrArg (|·|) h
  rw [abs_div, abs_toRat, abs_toRat, abs_toRat] at habs
  have hcross : (d.mantissa * 10 ^ a.scale * b.mantissa : ℚ) =
      a.mantissa * 10 ^ b.scale * 10 ^ d.scale := by
    field_simp at habs
    linarith
  have hdigits : d.mantissa * 10 ^ a.scale * b.mantissa =
      a.mantissa * 10 ^ b.scale * 10 ^ d.scale := by
    exact_mod_cast hcross
  refine Nat.eq_of_mul_eq_mul_right (pow_ten_pos a.scale) ?_
  have ha28 := a.scale_le
  calc a.mantissa * 10 ^ (28 + b.scale - a.scale) * 10 ^ a.scale
      = a.mantissa * 10 ^ (28 + b.scale) := by
        rw [Nat.mul_assoc, ← Nat.pow_add, Nat.sub_add_cancel (by omega)]
    _ = a.mantissa * 10 ^ b.scale * 10 ^ d.scale * 10 ^ (28 - d.scale) := by
        rw [Nat.mul_assoc, Nat.mul_assoc, ← Nat.pow_add, ← Nat.pow_add,
          Nat.add_sub_cancel' d.scale_le, Nat.add_comm]
    _ = d.mantissa * 10 ^ (28 - d.scale) * b.mantissa * 10 ^ a.scale := by
        rw [← hdigits]
        ring

private theorem mul_pow_eq_of_rest {x y i j : Nat} (hi : i ≤ 28) (hj : j ≤ 28)
    (h : x * 10 ^ (28 - i) = y * 10 ^ (28 - j)) : x * 10 ^ j = y * 10 ^ i := by
  refine Nat.eq_of_mul_eq_mul_right (pow_ten_pos 28) ?_
  calc x * 10 ^ j * 10 ^ 28 = x * 10 ^ (28 - i) * 10 ^ i * 10 ^ j := by
        rw [Nat.mul_assoc x (10 ^ (28 - i)), ← Nat.pow_add, Nat.sub_add_cancel hi,
          Nat.mul_right_comm]
    _ = y * 10 ^ (28 - j) * 10 ^ j * 10 ^ i := by rw [h, Nat.mul_right_comm]
    _ = y * 10 ^ i * 10 ^ 28 := by
        rw [Nat.mul_assoc y (10 ^ (28 - j)), ← Nat.pow_add, Nat.sub_add_cancel hj,
          Nat.mul_right_comm]

private theorem toRat_eq_div_of_digits {c : Decimal}
    (hsign : c.negative = ((a.negative != b.negative) && c.mantissa != 0))
    (hdigits : |c.toRat| = |a.toRat / b.toRat|) : c.toRat = a.toRat / b.toRat := by
  rw [abs_div, abs_toRat, abs_toRat, abs_toRat] at hdigits
  rw [toRat_eq_ite c, toRat_eq_ite a, toRat_eq_ite b, hdigits, hsign]
  by_cases hzero : c.mantissa = 0
  · have hquotient : (a.mantissa / 10 ^ a.scale / (b.mantissa / 10 ^ b.scale) : ℚ) = 0 := by
      rw [← hdigits, hzero, Nat.cast_zero, zero_div]
    cases a.negative <;> cases b.negative <;> simp [hquotient, neg_div, div_neg]
  · cases a.negative <;> cases b.negative <;> simp [hzero, neg_div, div_neg]

/-- **Exact quotients.** A quotient that is the value of a number is not rounded. -/
theorem div?_exact (hb : b.isZero = false) (h : Representable (a.toRat / b.toRat)) :
    ∃ c, a.div? b = some c ∧ c.toRat = a.toRat / b.toRat := by
  rw [div?, if_neg (by simp [hb])]
  by_cases hza : a.isZero = true
  · exact ⟨zero, if_pos hza, by rw [isZero_iff.mp hza, zero_div, toRat_zero]⟩
  rw [if_neg hza]
  obtain ⟨d, hd⟩ := h
  have hexact := mantissa_mul_pow_of_toRat_eq hb hd
  rw [← Nat.div_add_mod a.mantissa b.mantissa, Nat.mul_comm b.mantissa] at hexact
  obtain ⟨m, s, inexact, hloop, hm, hs, hvalue⟩ := divideLoop_of_exact d.mantissa_lt
    (Nat.sub_le 28 d.scale) false hexact (Nat.mod_lt a.mantissa (mantissa_pos hb))
    ((Nat.div_le_self _ _).trans_lt a.mantissa_lt)
  have hstrips : StripsTo (m, s) (if inexact = true then stripZeros m s else (m, s)) := by
    split
    · exact stripsTo_stripZeros _ _
    · exact .refl _
  rw [hloop]
  simp only [Option.bind_eq_bind, Option.bind_some]
  generalize (if inexact = true then stripZeros m s else (m, s)) = p at hstrips
  obtain ⟨m', s'⟩ := p
  obtain ⟨hs', hm'⟩ := hstrips
  dsimp only at hs' hm'
  have hle : m' ≤ m := hm' ▸ Nat.le_mul_of_pos_right m' (pow_ten_pos _)
  have hfits : m' < 2 ^ 96 ∧ s' ≤ 28 := ⟨by omega, by omega⟩
  rw [ofParts?, dif_pos hfits]
  refine ⟨_, rfl, toRat_eq_div_of_digits rfl ?_⟩
  rw [← hd, abs_toRat, abs_toRat, div_eq_div_iff (by positivity) (by positivity)]
  have hsame : m' * 10 ^ (28 - s') = d.mantissa * 10 ^ (28 - d.scale) := by
    rw [← hvalue, ← hm', Nat.mul_assoc, ← Nat.pow_add, (by omega : s - s' + (28 - s) = 28 - s')]
  exact_mod_cast mul_pow_eq_of_rest hfits.2 d.scale_le hsame

/-! ## Rounding to decimals -/

theorem toRat_padTo (d : Decimal) (places : Nat) : (d.padTo places).toRat = d.toRat := by
  have hpos : (10 : ℚ) ^ padding d.mantissa (Nat.min places 28 - d.scale) ≠ 0 := by positivity
  rw [toRat_eq_ite, toRat_eq_ite, padTo]
  dsimp only
  rw [pow_add, Nat.cast_mul, Nat.cast_pow, Nat.cast_ofNat, mul_div_mul_right _ _ hpos]

theorem toRat_roundTo_of_isMultiple (h : IsMultiple places d.toRat) :
    (d.roundTo places).toRat = d.toRat := by
  rw [roundTo]
  split
  · rename_i hlt
    obtain ⟨n, hn⟩ := h
    have hsigned : d.signed = n * 10 ^ (d.scale - places) := by
      have hpow : (10 : ℚ) ^ d.scale = 10 ^ (d.scale - places) * 10 ^ places := by
        rw [← pow_add, Nat.sub_add_cancel hlt.le]
      have hcast : (d.signed : ℚ) = n * 10 ^ (d.scale - places) := by
        rw [toRat, div_eq_div_iff (by positivity) (by positivity), hpow, ← mul_assoc] at hn
        exact mul_right_cancel₀ (by positivity) hn
      exact_mod_cast hcast
    have hmantissa : d.mantissa = n.natAbs * 10 ^ (d.scale - places) := by
      rw [← natAbs_signed, hsigned, Int.natAbs_mul, Int.natAbs_pow]
      rfl
    have hdigits : divRoundEven d.mantissa (10 ^ (d.scale - places)) = n.natAbs := by
      rw [hmantissa, divRoundEven_mul_self _ (pow_ten_pos _)]
    have hquotient : (d.mantissa / 10 ^ d.scale : ℚ) = n.natAbs / 10 ^ places := by
      rw [← abs_toRat, hn, abs_div, Nat.cast_natAbs, Int.cast_abs,
        abs_of_pos (show (0 : ℚ) < 10 ^ places by positivity)]
    rw [toRat_eq_ite, toRat_eq_ite d, hquotient]
    simp only [hdigits]
    by_cases hzero : n.natAbs = 0
    · simp [hzero]
    · simp [hzero]
  · rfl

theorem toRat_toPlaces_of_isMultiple (h : IsMultiple places d.toRat) :
    (d.toPlaces places).toRat = d.toRat := by
  rw [toPlaces, toRat_padTo, toRat_roundTo_of_isMultiple h]

end PlanLedger.Decimal
