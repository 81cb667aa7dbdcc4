import Mathlib.Algebra.Order.Ring.Nat
import Mathlib.Tactic.IntervalCases
import Mathlib.Tactic.Linarith
import Mathlib.Tactic.Ring
import PlanLedger.Formula.Value
import PlanLedger.Proofs.Decimal.Range

/-!
# Products, quotients and multiples in range

The long division extends a quotient by decimals until it is exact, has no room left, or its digits
would no longer fit. What carries the induction is that the digits so far and the remainder make up
the numerator with as many zeros as there were decimals; so what the division ends with is the
quotient rounded to the nearest at its last decimal, with as many decimals as fit. Rounding to
tens, hundreds and so on divides, rounds and multiplies, and it is refused exactly if the nearest
multiple has more than 96 bits.
-/

namespace PlanLedger.Decimal

/-! ## Products -/

/-- **The range of products.** Two numbers have no product exactly if the nearest whole number of
their exact product has more than 96 bits. -/
theorem mul?_eq_none_iff {a b : Decimal} : a.mul? b = none ↔
    2 ^ 96 ≤ divRoundEven (a.mantissa * b.mantissa) (10 ^ (a.scale + b.scale)) := by
  have hle := divRoundEven_le (a.mantissa * b.mantissa) (pow_ten_pos (a.scale + b.scale))
  rw [mul?]
  by_cases hzero : (a.isZero || b.isZero) = true
  · rw [if_pos hzero]
    have hproduct : a.mantissa * b.mantissa = 0 := by
      simpa [isZero] using hzero
    exact iff_of_false (Option.some_ne_none zero) (by omega)
  · rw [if_neg hzero]
    dsimp only
    by_cases hshort : a.mantissa < 2 ^ 32 ∧ b.mantissa < 2 ^ 32
    · rw [if_pos hshort]
      have hproduct : a.mantissa * b.mantissa ≤ 2 ^ 32 * 2 ^ 32 :=
        Nat.mul_le_mul hshort.1.le hshort.2.le
      by_cases hfar : 47 < a.scale + b.scale
      · rw [if_pos hfar]
        exact iff_of_false (Option.some_ne_none zero) (by omega)
      · rw [if_neg hfar, Option.map_eq_none_iff, fit?_eq_none_iff]
    · rw [if_neg hshort]
      exact fit?_eq_none_iff

/-! ## Long division -/

/-- The digits of a quotient to `c` decimals: they are rounded to the nearest, fit into 96 bits, and
there are as many decimals as the quotient has, as fit or as there is room for. -/
structure IsQuotient (n d room digits c : Nat) : Prop where
  digits_eq : digits = divRoundEven (n * 10 ^ c) d
  fits : digits < 2 ^ 96
  decimals_le : c ≤ room
  full : d ∣ n * 10 ^ c ∨ 2 ^ 96 ≤ divRoundEven (n * 10 ^ (c + 1)) d ∨ c = room

section

variable {n d q r : Nat}

theorem le_of_padding_lt {m room : Nat} (h : padding m room < room) :
    2 ^ 96 ≤ m * 10 ^ (padding m room + 1) := by
  induction room with
  | zero => exact absurd h (Nat.not_lt_zero _)
  | succ room ih =>
    rw [padding] at h ⊢
    split at h
    · exact absurd h (Nat.lt_irrefl _)
    · rename_i hlarge
      rw [if_neg hlarge]
      rcases Nat.eq_or_lt_of_le (padding_le m room) with heq | hlt
      · rw [heq]
        exact Nat.le_of_not_lt hlarge
      · exact ih hlt

theorem div_eq_of_eq (h : n = q * d + r) (hr : r < d) : n / d = q := by
  rw [h, Nat.mul_comm, Nat.mul_add_div (by omega), Nat.div_eq_of_lt hr, Nat.add_zero]

theorem divRoundEven_of_eq (h : n = q * d + r) (hr : r < d) :
    divRoundEven n d = if d < 2 * r ∨ (2 * r = d ∧ q % 2 = 1) then q + 1 else q := by
  have hrest : n % d = r := by
    rw [h, Nat.mul_comm, Nat.mul_add_mod, Nat.mod_eq_of_lt hr]
  rw [divRoundEven, div_eq_of_eq h hr, hrest]

/-- To drop the last decimal of digits with a remainder is to round at the decimal before it. -/
theorem dropOverflow_eq (h : n * 10 = q * d + r) (hr : r < d) :
    dropOverflow q (r != 0) = divRoundEven n d := by
  obtain ⟨last, hlast⟩ : ∃ last, q % 10 = last := ⟨_, rfl⟩
  have hlt : last < 10 := by omega
  have hq : q * d = q / 10 * d * 10 + last * d := by
    conv_lhs => rw [← Nat.div_add_mod q 10, hlast]
    ring
  -- The remainder at the decimal before takes in the last digit.
  obtain ⟨rest, hrest⟩ : ∃ rest, n = q / 10 * d + rest := ⟨n - q / 10 * d, by omega⟩
  have hdigit : rest * 10 = last * d + r := by omega
  have hle : last * d ≤ 9 * d := Nat.mul_le_mul_right d (by omega)
  rw [divRoundEven_of_eq hrest (by omega), dropOverflow, hlast]
  refine if_congr ?_ rfl rfl
  interval_cases last <;> simp <;> omega

theorem extend_eq (h : n = q * d + r) (k : Nat) :
    n * 10 ^ k = (q * 10 ^ k + r * 10 ^ k / d) * d + r * 10 ^ k % d := by
  have hrest := Nat.div_add_mod (r * 10 ^ k) d
  rw [h]
  linarith [hrest, Nat.mul_comm d (r * 10 ^ k / d)]

variable {room c : Nat}

theorem isQuotient_of_exact (h : n * 10 ^ c = q * d) (hd : 0 < d) (hq : q < 2 ^ 96)
    (hc : c ≤ room) : IsQuotient n d room q c :=
  ⟨by rw [h, divRoundEven_mul_self q hd], hq, hc, .inl (h ▸ Nat.dvd_mul_left d q)⟩

/-- A quotient that is rounded at a decimal after which there is no place for another one. -/
theorem isQuotient_of_rounded (h : n * 10 ^ c = q * d + r) (hr : r < d)
    (hfits : divRoundEven (n * 10 ^ c) d < 2 ^ 96) (hc : c ≤ room)
    (hlast : 2 ^ 96 ≤ q * 10 ∨ c = room) :
    IsQuotient n d room (divRoundEven (n * 10 ^ c) d) c := by
  refine ⟨rfl, hfits, hc, .inr (hlast.imp_left fun hlarge ↦ ?_)⟩
  refine le_trans hlarge (le_trans ?_ (div_le_divRoundEven _ d))
  rw [Nat.le_div_iff_mul_le (by omega), Nat.pow_succ, ← Nat.mul_assoc, h]
  linarith

/-- A quotient that loses its last decimal because the digits do not fit with it. -/
theorem isQuotient_of_dropped (h : n * 10 ^ (c + 1) = q * d + r) (hr : r < d)
    (hlarge : 2 ^ 96 ≤ divRoundEven (n * 10 ^ (c + 1)) d) (hq : q < 2 ^ 96 + 10 ^ 9)
    (hc : c ≤ room) : IsQuotient n d room (dropOverflow q (r != 0)) c := by
  refine ⟨dropOverflow_eq (by rw [← h, Nat.pow_succ, Nat.mul_assoc]) hr, ?_, hc, .inr (.inl hlarge)⟩
  rw [dropOverflow]
  split <;> omega

theorem le_or_eq_of_extension_eq_zero (h : extension q room = 0) : 2 ^ 96 ≤ q * 10 ∨ room = 0 := by
  by_cases hroom : room = 0
  · exact .inr hroom
  · have hlt : extension q room < Nat.min 9 room := by
      rw [h]
      exact Nat.lt_min.mpr ⟨by decide, Nat.pos_of_ne_zero hroom⟩
    have hlarge := le_of_padding_lt hlt
    rw [← extension, h] at hlarge
    exact .inl hlarge

/-- Rounding up makes `2 ^ 96` of digits that fit if they do not fit afterwards. The last of them is
a decimal, and without it they fit. -/
theorem exists_isQuotient_of_rounded_up (hn : n < 2 ^ 96) (h : n * 10 ^ c = q * d + r) (hr : r < d)
    (hexact : r ≠ 0) (hq : q < 2 ^ 96) (hc : c ≤ room)
    (hlarge : ¬divRoundEven (n * 10 ^ c) d < 2 ^ 96) :
    ∃ c', c = c' + 1 ∧
      IsQuotient n d room (dropOverflow (divRoundEven (n * 10 ^ c) d) true) c' := by
  have hup := divRoundEven_le_div_add_one (n * 10 ^ c) d
  rw [div_eq_of_eq h hr] at hup
  have hq' : q = 2 ^ 96 - 1 := by omega
  have hdigits : divRoundEven (n * 10 ^ c) d = 2 ^ 96 := by omega
  obtain ⟨c, rfl⟩ : ∃ c', c = c' + 1 := by
    -- A first quotient is not that large: with a remainder its divisor is two at least.
    refine Nat.exists_eq_succ_of_ne_zero fun hzero ↦ ?_
    have htwice : q * 2 ≤ q * d := Nat.mul_le_mul_left q (by omega)
    rw [hzero, Nat.pow_zero, Nat.mul_one] at h
    omega
  have hdropped : IsQuotient n d room (dropOverflow q (r != 0)) c :=
    isQuotient_of_dropped h hr (by omega) (by omega) (by omega)
  have hlast : dropOverflow (2 ^ 96) true = dropOverflow (2 ^ 96 - 1) true := by decide
  rw [bne_iff_ne.mpr hexact, hq', ← hlast, ← hdigits] at hdropped
  exact ⟨c, rfl, hdropped⟩

theorem added_digits_le {k : Nat} (hr : r < d) (hnine : k ≤ 9) : r * 10 ^ k / d ≤ 10 ^ 9 :=
  calc r * 10 ^ k / d ≤ d * 10 ^ k / d := Nat.div_le_div_right (Nat.mul_le_mul_right _ hr.le)
    _ = 10 ^ k := Nat.mul_div_cancel_left _ (by omega)
    _ ≤ 10 ^ 9 := Nat.pow_le_pow_right (by decide) hnine

/-- Digits that were extended by nine at most, and are too many then, fit without the last one. -/
theorem isQuotient_of_extended {k : Nat} (h : n * 10 ^ (c + k) = (q * 10 ^ k + r * 10 ^ k / d) * d +
    r * 10 ^ k % d) (hr : r < d) (hk : k ≠ 0) (hnine : k ≤ 9) (hkept : q * 10 ^ k < 2 ^ 96)
    (hlarge : ¬q * 10 ^ k + r * 10 ^ k / d < 2 ^ 96) (hc : c + k ≤ room) :
    IsQuotient n d room (dropOverflow (q * 10 ^ k + r * 10 ^ k / d) (r * 10 ^ k % d != 0))
      (c + k - 1) := by
  have hrest := Nat.mod_lt (r * 10 ^ k) (by omega : 0 < d)
  have hadded := added_digits_le hr hnine
  rw [(by omega : c + k = c + k - 1 + 1)] at h
  refine isQuotient_of_dropped h hrest ?_ (by omega) (by omega)
  refine le_trans (Nat.le_of_not_lt hlarge) ?_
  rw [← div_eq_of_eq h hrest]
  exact div_le_divRoundEven _ d

/-- **Long division.** It ends with a quotient of the numerator, at the scale that its decimals lead
to. -/
theorem divideLoop_eq_some {total : Nat} (hn : n < 2 ^ 96) (htotal : total ≤ 28) (inexact : Bool)
    (hroom : c + room = total) (hsplit : n * 10 ^ c = q * d + r) (hr : r < d) (hq : q < 2 ^ 96) :
    ∃ digits c' inexact',
      divideLoop d q r room inexact = some (digits, 28 - total + c', inexact') ∧
        IsQuotient n d total digits c' := by
  induction room using Nat.strong_induction_on generalizing q r c inexact with
  | _ room ih =>
  have hd : 0 < d := by omega
  have hc : c ≤ total := by omega
  have hscale : 28 - room = 28 - total + c := by omega
  rw [divideLoop]
  by_cases hexact : r = 0
  · subst hexact
    rw [if_pos rfl, if_pos (by omega : room ≤ 28), hscale]
    exact ⟨q, c, inexact, rfl, isQuotient_of_exact hsplit hd hq hc⟩
  rw [if_neg hexact]
  have hle : extension q room ≤ Nat.min 9 room := padding_le q _
  have hkept : q * 10 ^ extension q room < 2 ^ 96 := mul_padding_lt hq _
  obtain ⟨hnine, hleft⟩ := Nat.le_min.mp hle
  dsimp only
  rw [if_neg (by omega)]
  by_cases hnone : extension q room = 0
  · rw [if_pos hnone]
    have hround := divRoundEven_of_eq hsplit hr
    rw [← hround]
    by_cases hfits : divRoundEven (n * 10 ^ c) d < 2 ^ 96
    · have hlast : 2 ^ 96 ≤ q * 10 ∨ c = total :=
        (le_or_eq_of_extension_eq_zero hnone).imp_right fun h ↦ by omega
      rw [if_pos hfits, hscale]
      exact ⟨_, c, true, rfl, isQuotient_of_rounded hsplit hr hfits hc hlast⟩
    · obtain ⟨c, rfl, hdropped⟩ :=
        exists_isQuotient_of_rounded_up hn hsplit hr hexact hq hc hfits
      rw [if_neg hfits, if_pos (by omega), (by omega : 27 - room = 28 - total + c)]
      exact ⟨_, c, true, rfl, hdropped⟩
  · rw [if_neg hnone]
    have hextended := extend_eq hsplit (extension q room)
    rw [Nat.mul_assoc, ← Nat.pow_add] at hextended
    generalize extension q room = k at *
    by_cases hfits : q * 10 ^ k + r * 10 ^ k / d < 2 ^ 96
    · rw [if_pos hfits]
      exact ih (room - k) (by omega) true (by omega) hextended (Nat.mod_lt _ hd) hfits
    · rw [if_neg hfits, if_pos (by omega), (by omega : 27 - (room - k) = 28 - total + (c + k - 1))]
      exact ⟨_, c + k - 1, true, rfl,
        isQuotient_of_extended hextended hr hnone hnine hkept hfits (by omega)⟩

end

/-! ## Zeros at the end -/

/-- Digits and decimals from which zeros at the end are gone. -/
def StripsTo (p p' : Nat × Nat) : Prop := p'.2 ≤ p.2 ∧ p'.1 * 10 ^ (p.2 - p'.2) = p.1

namespace StripsTo

theorem refl (p : Nat × Nat) : StripsTo p p :=
  ⟨le_rfl, by rw [Nat.sub_self, Nat.pow_zero, Nat.mul_one]⟩

theorem trans {p p' p'' : Nat × Nat} (h : StripsTo p p') (h' : StripsTo p' p'') :
    StripsTo p p'' := by
  obtain ⟨hle, heq⟩ := h
  obtain ⟨hle', heq'⟩ := h'
  refine ⟨hle'.trans hle, ?_⟩
  have hdropped : p.2 - p''.2 = p'.2 - p''.2 + (p.2 - p'.2) := by omega
  rw [hdropped, Nat.pow_add, ← Nat.mul_assoc, heq', heq]

theorem zeros {p : Nat × Nat} {n : Nat} (hle : n ≤ p.2) (hzeros : p.1 % 10 ^ n = 0) :
    StripsTo p (p.1 / 10 ^ n, p.2 - n) := by
  refine ⟨Nat.sub_le p.2 n, ?_⟩
  dsimp only
  rw [Nat.sub_sub_self hle]
  exact Nat.div_mul_cancel (Nat.dvd_of_mod_eq_zero hzeros)

end StripsTo

theorem stripsTo_stripStep (n bits : Nat) (p : Nat × Nat) : StripsTo p (stripStep n bits p) := by
  rw [stripStep]
  split
  · rename_i h
    exact .zeros h.2.1 h.2.2
  · exact .refl p

theorem stripsTo_stripEights (steps : Nat) (p : Nat × Nat) : StripsTo p (stripEights steps p) := by
  induction steps generalizing p with
  | zero => exact .refl p
  | succ steps ih =>
    rw [stripEights]
    split
    · rename_i h
      exact (StripsTo.zeros h.2.1 h.2.2).trans (ih _)
    · exact .refl p

theorem stripsTo_stripZeros (m s : Nat) : StripsTo (m, s) (stripZeros m s) :=
  (((stripsTo_stripEights 3 _).trans (stripsTo_stripStep 4 4 _)).trans
    (stripsTo_stripStep 2 2 _)).trans (stripsTo_stripStep 1 1 _)

/-! ## Quotients -/

/-- **Division.** By a number with no more decimals than its own and other than zero, every number
can be divided. The quotient is rounded at its last decimal, and then zeros at the end may be
gone. -/
theorem exists_div? {a b : Decimal} (hb : b.isZero = false) (hscale : b.scale ≤ a.scale) :
    ∃ q digits c, a.div? b = some q ∧
      IsQuotient a.mantissa b.mantissa (28 - (a.scale - b.scale)) digits c ∧
      StripsTo (digits, a.scale - b.scale + c) (q.mantissa, q.scale) := by
  have hpos : 0 < b.mantissa := Nat.pos_of_ne_zero (beq_eq_false_iff_ne.mp hb)
  have ha28 := a.scale_le
  rw [div?, if_neg (by simp [hb])]
  by_cases hzero : a.isZero = true
  · have hm : a.mantissa = 0 := beq_iff_eq.mp hzero
    rw [if_pos hzero]
    have hexact : a.mantissa * 10 ^ 0 = 0 * b.mantissa := by rw [hm, Nat.zero_mul, Nat.zero_mul]
    exact ⟨zero, 0, 0, rfl, isQuotient_of_exact hexact hpos (by decide) (Nat.zero_le _),
      Nat.zero_le _, Nat.zero_mul _⟩
  · rw [if_neg hzero]
    have htotal : 28 - (a.scale - b.scale) ≤ 28 := Nat.sub_le _ _
    obtain ⟨digits, c, inexact, hloop, hquotient⟩ := divideLoop_eq_some (c := 0)
      a.mantissa_lt htotal false (Nat.zero_add _)
      (by rw [Nat.pow_zero, Nat.mul_one, Nat.mul_comm, Nat.div_add_mod])
      (Nat.mod_lt a.mantissa hpos) ((Nat.div_le_self _ _).trans_lt a.mantissa_lt)
    have hfits := hquotient.fits
    have hroom : 28 + b.scale - a.scale = 28 - (a.scale - b.scale) := by omega
    have hdecimals := hquotient.decimals_le
    rw [(by omega : 28 - (28 - (a.scale - b.scale)) + c = a.scale - b.scale + c)] at hloop
    have hstrips : StripsTo (digits, a.scale - b.scale + c)
        (if inexact = true then stripZeros digits (a.scale - b.scale + c)
          else (digits, a.scale - b.scale + c)) := by
      split
      · exact stripsTo_stripZeros _ _
      · exact .refl _
    rw [hroom, hloop]
    simp only [Option.bind_eq_bind, Option.bind_some]
    generalize (if inexact = true then stripZeros digits (a.scale - b.scale + c)
      else (digits, a.scale - b.scale + c)) = p at hstrips
    obtain ⟨m, s⟩ := p
    obtain ⟨hs, hm⟩ := hstrips
    dsimp only at hs hm
    have hle : m ≤ digits := hm ▸ Nat.le_mul_of_pos_right m (pow_ten_pos _)
    rw [ofParts?, dif_pos ⟨by omega, by omega⟩]
    exact ⟨_, digits, c, rfl, hquotient, hs, hm⟩

/-! ## Multiples -/

theorem scale_roundTo_zero (d : Decimal) : (d.roundTo 0).scale = 0 := by
  rw [roundTo]
  split
  · rfl
  · omega

theorem mantissa_roundTo_zero (d : Decimal) :
    (d.roundTo 0).mantissa = divRoundEven d.mantissa (10 ^ d.scale) := by
  rw [roundTo]
  split
  · rfl
  · rename_i h
    rw [Nat.eq_zero_of_not_pos h, Nat.pow_zero, divRoundEven_one]

section

variable {m s k c digits : Nat}

/-- A quotient by a power of ten with all its decimals is rounded to a whole number as the numerator
is. -/
theorem divRoundEven_of_exact (h : 10 ^ k ∣ m * 10 ^ c)
    (hdigits : digits = divRoundEven (m * 10 ^ c) (10 ^ k)) :
    divRoundEven digits (10 ^ (s + c)) = divRoundEven m (10 ^ (s + k)) := by
  obtain ⟨q, hq⟩ := h
  rw [hq, Nat.mul_comm, divRoundEven_mul_self q (pow_ten_pos k)] at hdigits
  refine divRoundEven_eq_of_mul_eq (pow_ten_pos _) (pow_ten_pos _) ?_
  rw [hdigits, Nat.pow_add, Nat.pow_add]
  calc q * (10 ^ s * 10 ^ k) = 10 ^ k * q * 10 ^ s := by ring
    _ = m * (10 ^ s * 10 ^ c) := by rw [← hq]; ring

/-- A quotient by a power of ten has all its decimals, or all that there is room for. -/
theorem IsQuotient.exact_or_full (hm : m < 2 ^ 96) {room : Nat}
    (h : IsQuotient m (10 ^ k) room digits c) : 10 ^ k ∣ m * 10 ^ c ∨ c = room := by
  rcases Nat.lt_or_ge c k with hlt | hle
  · -- One more decimal would not make the digits longer than those of `m`.
    have hnext : divRoundEven (m * 10 ^ (c + 1)) (10 ^ k) ≤ m := by
      have hpow : 10 ^ k = 10 ^ (k - (c + 1)) * 10 ^ (c + 1) := by
        rw [← Nat.pow_add]
        congr 1
        omega
      rw [hpow, divRoundEven_mul_mul _ _ (pow_ten_pos _)]
      exact divRoundEven_le m (pow_ten_pos _)
    exact h.full.imp_right fun hlast ↦ hlast.resolve_left (by omega)
  · exact .inl (Dvd.dvd.mul_left (Nat.pow_dvd_pow 10 hle) m)

theorem IsQuotient.exact_of_whole (hm : m < 2 ^ 96) (hk : k ≤ 28)
    (h : IsQuotient m (10 ^ k) 28 digits c) : 10 ^ k ∣ m * 10 ^ c := by
  refine (h.exact_or_full hm).elim id fun hc ↦ ?_
  exact Dvd.dvd.mul_left (Nat.pow_dvd_pow 10 (hc ▸ hk)) m

/-- With a decimal, a number is so far below the end of the range that no multiple next to it is
beyond it. -/
theorem divRoundEven_mul_lt (hm : m < 2 ^ 96) (hk : k ≤ 28) (hs : 1 ≤ s) {n d : Nat}
    (hn : n * 10 ^ k ≤ m * 10 ^ c + 10 ^ k * 10 ^ c) (hd : d = 10 ^ (s + c)) :
    divRoundEven n d * 10 ^ k < 2 ^ 96 := by
  have hpow : 10 ^ k ≤ 10 ^ 28 := Nat.pow_le_pow_right (by decide) hk
  have hten : 10 ≤ 10 ^ s := Nat.le_self_pow (by omega) 10
  have hwhole : n / d * 10 ^ k * 10 ≤ m + 10 ^ k := by
    refine Nat.le_of_mul_le_mul_right ?_ (pow_ten_pos c)
    calc n / d * 10 ^ k * 10 * 10 ^ c ≤ n / d * 10 ^ k * 10 ^ s * 10 ^ c :=
          Nat.mul_le_mul_right _ (Nat.mul_le_mul_left _ hten)
      _ = n / d * d * 10 ^ k := by rw [hd, Nat.pow_add]; ring
      _ ≤ n * 10 ^ k := Nat.mul_le_mul_right _ (Nat.div_mul_le_self n d)
      _ ≤ (m + 10 ^ k) * 10 ^ c := by rw [Nat.add_mul]; exact hn
  have hup := Nat.mul_le_mul_right (10 ^ k) (divRoundEven_le_div_add_one n d)
  rw [Nat.add_mul] at hup
  omega

end

end PlanLedger.Decimal

namespace PlanLedger.Formula

open Decimal

/-- **The range of multiples.** A number cannot be rounded to whole multiples of `10 ^ k` exactly if
the nearest multiple, ties to even, has more than 96 bits. -/
theorem roundToMultiple?_eq_none_iff {d : Decimal} {k : Nat} (hk : k ≤ 28) :
    roundToMultiple? d k = none ↔
      2 ^ 96 ≤ divRoundEven d.mantissa (10 ^ (d.scale + k)) * 10 ^ k := by
  have hpow : 10 ^ k ≤ 10 ^ 28 := Nat.pow_le_pow_right (by decide) hk
  have hfactor : 10 ^ k < 2 ^ 96 ∧ 0 ≤ 28 := ⟨by omega, by omega⟩
  rw [roundToMultiple?, ofParts?, dif_pos hfactor]
  simp only [Option.bind_eq_bind, Option.bind_some]
  obtain ⟨q, digits, c, hq, hquotient, hs, hdigits⟩ := exists_div? (a := d)
    (b := ⟨false, 10 ^ k, 0, hfactor.1, hfactor.2⟩)
    (beq_eq_false_iff_ne.mpr (pow_ten_pos k).ne') (Nat.zero_le _)
  rw [hq, Option.bind_some, mul?_eq_none_iff, scale_roundTo_zero, mantissa_roundTo_zero]
  dsimp only [Nat.sub_zero] at hquotient hs hdigits ⊢
  rw [Nat.add_zero, Nat.pow_zero, divRoundEven_one]
  have hwhole : divRoundEven q.mantissa (10 ^ q.scale) =
      divRoundEven digits (10 ^ (d.scale + c)) := by
    rw [← hdigits, ← divRoundEven_mul_mul _ _ (pow_ten_pos (d.scale + c - q.scale)), ← Nat.pow_add,
      Nat.add_sub_cancel' hs]
  rw [hwhole]
  by_cases hexact : 10 ^ k ∣ d.mantissa * 10 ^ c
  · rw [divRoundEven_of_exact hexact hquotient.digits_eq]
  · have hscale : 1 ≤ d.scale := by
      by_contra hzero
      rw [(by omega : 28 - d.scale = 28)] at hquotient
      exact hexact (hquotient.exact_of_whole d.mantissa_lt hk)
    have hover : digits * 10 ^ k ≤ d.mantissa * 10 ^ c + 10 ^ k * 10 ^ c := by
      have hup := divRoundEven_le_div_add_one (d.mantissa * 10 ^ c) (10 ^ k)
      rw [← hquotient.digits_eq] at hup
      calc digits * 10 ^ k ≤ (d.mantissa * 10 ^ c / 10 ^ k + 1) * 10 ^ k :=
            Nat.mul_le_mul_right _ hup
        _ = d.mantissa * 10 ^ c / 10 ^ k * 10 ^ k + 10 ^ k := by rw [Nat.add_mul, Nat.one_mul]
        _ ≤ d.mantissa * 10 ^ c + 10 ^ k * 10 ^ c :=
          Nat.add_le_add (Nat.div_mul_le_self _ _) (Nat.le_mul_of_pos_right _ (pow_ten_pos c))
    refine iff_of_false ?_ ?_
    · exact Nat.not_le_of_lt (divRoundEven_mul_lt d.mantissa_lt hk hscale hover rfl)
    · exact Nat.not_le_of_lt
        (divRoundEven_mul_lt d.mantissa_lt hk hscale (Nat.le_add_right _ _) rfl)

end PlanLedger.Formula
