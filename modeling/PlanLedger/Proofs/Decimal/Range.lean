import Mathlib.Algebra.Order.Group.Nat
import PlanLedger.Decimal.Arithmetic

/-!
# The range of decimal numbers

A result is brought into the limits by dropping decimals, and the more of them are dropped the
smaller the digits are. So a result is refused exactly if the nearest whole number, ties to even,
has more than 96 bits; a sum is refused for no other reason.
-/

namespace PlanLedger.Decimal

/-! ## Quotients to the nearest whole number -/

section

variable {n d : Nat}

theorem div_le_divRoundEven (n d : Nat) : n / d ≤ divRoundEven n d := by
  simp only [divRoundEven]
  split <;> omega

theorem divRoundEven_le_div_add_one (n d : Nat) : divRoundEven n d ≤ n / d + 1 := by
  simp only [divRoundEven]
  split <;> omega

theorem divRoundEven_mul_self (n : Nat) (hd : 0 < d) : divRoundEven (n * d) d = n := by
  simp only [divRoundEven, Nat.mul_mod_left, Nat.mul_div_cancel n hd]
  rw [if_neg (by omega)]

@[simp] theorem divRoundEven_one (n : Nat) : divRoundEven n 1 = n := by
  simpa using divRoundEven_mul_self n Nat.one_pos

theorem divRoundEven_mul_mul (n d : Nat) {c : Nat} (hc : 0 < c) :
    divRoundEven (n * c) (d * c) = divRoundEven n d := by
  have hup : d * c < 2 * (n % d * c) ↔ d < 2 * (n % d) := by
    rw [← Nat.mul_assoc]
    exact Nat.mul_lt_mul_right hc
  have htie : 2 * (n % d * c) = d * c ↔ 2 * (n % d) = d := by
    rw [← Nat.mul_assoc]
    exact Nat.mul_left_inj hc.ne'
  simp only [divRoundEven, Nat.mul_div_mul_right n d hc, Nat.mul_mod_mul_right, hup, htie]

theorem divRoundEven_eq_of_mul_eq {n' d' : Nat} (hd : 0 < d) (hd' : 0 < d')
    (h : n * d' = n' * d) : divRoundEven n d = divRoundEven n' d' := by
  rw [← divRoundEven_mul_mul n d hd', h, Nat.mul_comm d d', divRoundEven_mul_mul n' d' hd]

private theorem le_rest_of_divRoundEven_ne (h : divRoundEven n d ≠ n / d) :
    d ≤ 2 * (n % d) ∧ divRoundEven n d = n / d + 1 := by
  simp only [divRoundEven] at h ⊢
  split at h
  · rename_i hup
    rw [if_pos hup]
    omega
  · exact absurd rfl h

theorem divRoundEven_le (n : Nat) (hd : 0 < d) : divRoundEven n d ≤ n := by
  by_cases h : divRoundEven n d = n / d
  · exact h ▸ Nat.div_le_self n d
  · obtain ⟨hrest, heq⟩ := le_rest_of_divRoundEven_ne h
    -- Rounding up needs a remainder, and a divisor of one leaves none.
    have hmod := Nat.mod_lt n hd
    have hd2 : 2 ≤ d := by omega
    have hmul : n / d ≤ d * (n / d) := Nat.le_mul_of_pos_left _ hd
    have hn := Nat.div_add_mod n d
    omega

theorem divRoundEven_mul_le (n : Nat) (hd : 0 < d) {c : Nat} (hc : 0 < c) :
    divRoundEven n (d * c) ≤ divRoundEven n d := by
  rcases Nat.eq_or_lt_of_le (Nat.succ_le_of_lt hc) with rfl | hc2
  · rw [Nat.mul_one]
  refine le_trans ?_ (div_le_divRoundEven n d)
  have hquotient : n / (d * c) = n / d / c := (Nat.div_div_eq_div_mul n d c).symm
  by_cases h : divRoundEven n (d * c) = n / (d * c)
  · rw [h, hquotient]
    exact Nat.div_le_self _ _
  · obtain ⟨hrest, heq⟩ := le_rest_of_divRoundEven_ne h
    -- Half of `d * c` is one `d` at least, so `n / d` is more than `c` times the quotient.
    have hstep : d * 2 ≤ d * c := Nat.mul_le_mul_left d hc2
    have hone : d * (c * (n / (d * c)) + 1) ≤ n := by
      have hn := Nat.div_add_mod n (d * c)
      rw [Nat.mul_assoc] at hn
      rw [Nat.mul_add, Nat.mul_one]
      omega
    have hle : c * (n / (d * c)) + 1 ≤ n / d := by
      rw [Nat.le_div_iff_mul_le hd, Nat.mul_comm]
      exact hone
    have hmul : n / (d * c) ≤ c * (n / (d * c)) := Nat.le_mul_of_pos_left _ hc
    omega

end

/-! ## Dropping decimals -/

theorem pow_ten_pos (k : Nat) : 0 < 10 ^ k := Nat.pow_pos (by decide)

theorem dropDigits_anti (m : Nat) {j k : Nat} (h : j ≤ k) : dropDigits m k ≤ dropDigits m j := by
  obtain ⟨i, rfl⟩ := Nat.exists_eq_add_of_le h
  rw [dropDigits_eq, dropDigits_eq, Nat.pow_add]
  exact divRoundEven_mul_le m (pow_ten_pos j) (pow_ten_pos i)

section

variable {drop : Nat → Nat} {limit k tries : Nat}

theorem firstDrop?_eq_none : firstDrop? drop limit k tries = none ↔
    ∀ j, k ≤ j → j < k + tries → limit ≤ drop j := by
  induction tries generalizing k with
  | zero =>
    rw [firstDrop?]
    exact iff_of_true rfl fun j hle hlt ↦ by omega
  | succ tries ih =>
    rw [firstDrop?]
    split
    · rename_i hfits
      refine iff_of_false (Option.some_ne_none k) fun h ↦ ?_
      exact absurd (h k le_rfl (by omega)) (Nat.not_le_of_lt hfits)
    · rename_i hlarge
      rw [ih]
      constructor
      · intro h j hle hlt
        rcases Nat.eq_or_lt_of_le hle with rfl | hlt'
        · exact Nat.le_of_not_lt hlarge
        · exact h j hlt' (by omega)
      · intro h j hle hlt
        exact h j (by omega) (by omega)

theorem firstDrop?_eq_some {j : Nat} (h : firstDrop? drop limit k tries = some j) :
    drop j < limit ∧ k ≤ j ∧ j < k + tries := by
  induction tries generalizing k with
  | zero => cases h
  | succ tries ih =>
    rw [firstDrop?] at h
    split at h
    · rename_i hfits
      cases h
      exact ⟨hfits, le_rfl, by omega⟩
    · obtain ⟨hfits, hle, hlt⟩ := ih h
      exact ⟨hfits, by omega, by omega⟩

end

theorem ofParts?_eq_none {negative : Bool} {m s : Nat} :
    ofParts? negative m s = none ↔ ¬(m < 2 ^ 96 ∧ s ≤ 28) := by
  rw [ofParts?]
  split <;> simp [*]

/-- **Bringing into the limits.** A result is refused exactly if the nearest whole number has more
than 96 bits. -/
theorem fit?_eq_none_iff {negative : Bool} {m s : Nat} :
    fit? negative m s = none ↔ 2 ^ 96 ≤ divRoundEven m (10 ^ s) := by
  rw [fit?, fitBy?]
  by_cases hfits : m < 2 ^ 96 ∧ s ≤ 28
  · rw [if_pos hfits, ofParts?_eq_none]
    exact iff_of_false (fun h ↦ h hfits) (Nat.not_le_of_lt
      ((divRoundEven_le m (pow_ten_pos s)).trans_lt hfits.1))
  · rw [if_neg hfits, dropUntil?]
    cases hfirst : firstDrop? (dropDigits m) (2 ^ 96) (s - 28) (s + 1 - (s - 28)) with
    | none =>
      have hlast := firstDrop?_eq_none.mp hfirst s (Nat.sub_le s 28) (by omega)
      rw [dropDigits_eq] at hlast
      exact iff_of_true rfl hlast
    | some k =>
      obtain ⟨hdropped, hleast, hmost⟩ := firstDrop?_eq_some hfirst
      refine iff_of_false (fun h ↦ ?_) (Nat.not_le_of_lt ?_)
      · exact ofParts?_eq_none.mp h ⟨hdropped, by omega⟩
      · rw [← dropDigits_eq]
        exact (dropDigits_anti m (by omega)).trans_lt hdropped

/-! ## Sums -/

theorem natAbs_signedAt (d : Decimal) (s : Nat) :
    (d.signedAt s).natAbs = d.mantissa * 10 ^ (s - d.scale) := by
  have hsigned : d.signed.natAbs = d.mantissa := by
    rw [signed]
    split <;> simp
  rw [signedAt, Int.natAbs_mul, hsigned, Int.natAbs_pow]
  rfl

theorem divRoundEven_natAbs_signedAt_lt (d : Decimal) {s : Nat} (h : d.scale ≤ s) :
    divRoundEven (d.signedAt s).natAbs (10 ^ s) < 2 ^ 96 := by
  have hpow : 10 ^ s = 10 ^ d.scale * 10 ^ (s - d.scale) := by
    rw [← Nat.pow_add, Nat.add_sub_cancel' h]
  rw [natAbs_signedAt, hpow, divRoundEven_mul_mul _ _ (pow_ten_pos _)]
  exact (divRoundEven_le _ (pow_ten_pos _)).trans_lt d.mantissa_lt

theorem signedAt_of_isZero {d : Decimal} (h : d.isZero = true) (s : Nat) : d.signedAt s = 0 := by
  have hm : d.mantissa = 0 := beq_iff_eq.mp h
  simp [signedAt, signed, hm]

/-- The exact sum of two numbers without its sign, rounded to the nearest whole number. -/
def wholeSum (a b : Decimal) : Nat :=
  let s := Nat.max a.scale b.scale
  divRoundEven (a.signedAt s + b.signedAt s).natAbs (10 ^ s)

/-- **The range of sums.** Two numbers have no sum exactly if the nearest whole number of their
exact sum has more than 96 bits. -/
theorem add?_eq_none_iff {a b : Decimal} : a.add? b = none ↔ 2 ^ 96 ≤ a.wholeSum b := by
  rw [add?, wholeSum]
  by_cases ha : a.isZero = true
  · rw [if_pos ha, signedAt_of_isZero ha, Int.zero_add]
    exact iff_of_false (Option.some_ne_none b) (Nat.not_le_of_lt
      (b.divRoundEven_natAbs_signedAt_lt (Nat.le_max_right _ _)))
  · rw [if_neg ha]
    by_cases hb : b.isZero = true
    · rw [if_pos hb, signedAt_of_isZero hb, Int.add_zero]
      exact iff_of_false (Option.some_ne_none a) (Nat.not_le_of_lt
        (a.divRoundEven_natAbs_signedAt_lt (Nat.le_max_left _ _)))
    · rw [if_neg hb]
      exact fit?_eq_none_iff

end PlanLedger.Decimal
