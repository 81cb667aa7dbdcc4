import PlanLedger.Decimal.Text

/-!
# A written number is read back

A number is written as the digits before its point, and where it has decimals the point and as
many digits. Reading goes through these digits from left to right and multiplies what it has by
ten for each of them, so it arrives at the digits of the number, and it counts the digits after
the point. No digit is left out, since the number that is reached on the way never exceeds the one
at the end.
-/

namespace PlanLedger

/-! ## Digits -/

theorem Text.digit?_of_isDigit {c : Char} (h : c.isDigit = true) :
    digit? c = some (c.toNat - '0'.toNat) := by
  rw [digit?, if_pos]
  rw [Char.isDigit, Bool.and_eq_true, decide_eq_true_eq, decide_eq_true_eq] at h
  exact h

theorem le_ofDigitChars (digits : List Char) (m : Nat) : m ≤ Nat.ofDigitChars 10 digits m := by
  induction digits generalizing m with
  | nil => exact Nat.le_of_eq Nat.ofDigitChars_nil.symm
  | cons c rest ih =>
    rw [Nat.ofDigitChars_cons]
    exact Nat.le_trans (by omega) (ih _)

namespace Text

theorem length_paddedDigits {n width : Nat} (hpos : 0 < width) (h : n < 10 ^ width) :
    (paddedDigits n width).length = width := by
  have hlength : (Nat.toDigits 10 n).length ≤ width :=
    (Nat.length_toDigits_le_iff (by decide) hpos).mpr h
  simp only [paddedDigits, Nat.toString_eq_repr, Nat.toList_repr, List.length_append,
    List.length_replicate]
  omega

theorem isDigit_of_mem_paddedDigits {n width : Nat} {c : Char} (h : c ∈ paddedDigits n width) :
    c.isDigit = true := by
  simp only [paddedDigits, Nat.toString_eq_repr, Nat.toList_repr, List.mem_append,
    List.mem_replicate] at h
  obtain ⟨-, rfl⟩ | h := h
  · rfl
  · exact Nat.isDigit_of_mem_toDigits (by decide) (by decide) h

theorem ofDigitChars_paddedDigits {n width : Nat} (m : Nat) (hpos : 0 < width)
    (h : n < 10 ^ width) : Nat.ofDigitChars 10 (paddedDigits n width) m = m * 10 ^ width + n := by
  rw [Nat.ofDigitChars_eq_ofDigitChars_zero, length_paddedDigits hpos h]
  simp only [paddedDigits, Nat.toString_eq_repr, Nat.toList_repr, Nat.ofDigitChars_append,
    Nat.ofDigitChars_replicate_zero, Nat.mul_zero, Nat.ofDigitChars_ten_toDigits]
  rw [Nat.mul_comm]

end Text

namespace Decimal

open Text (digit?_of_isDigit length_paddedDigits isDigit_of_mem_paddedDigits
  ofDigitChars_paddedDigits)

/-! ## Reading digits -/

section

variable {negative hasDigit : Bool} {m scale : Nat} {digits rest : List Char}

theorem readDigits?_whole (hdigits : ∀ c ∈ digits, c.isDigit = true)
    (hfits : Nat.ofDigitChars 10 digits m < 2 ^ 96) :
    readDigits? negative ⟨m, 0, hasDigit, false⟩ (digits ++ rest) =
      readDigits? negative
        ⟨Nat.ofDigitChars 10 digits m, 0, hasDigit || !digits.isEmpty, false⟩ rest := by
  induction digits generalizing m hasDigit with
  | nil => simp
  | cons c digits ih =>
    rw [Nat.ofDigitChars_cons] at hfits ⊢
    have hstep : m * 10 + (c.toNat - '0'.toNat) < 2 ^ 96 := by
      rw [Nat.mul_comm]
      exact Nat.lt_of_le_of_lt (le_ofDigitChars _ _) hfits
    rw [List.cons_append, readDigits?, if_neg (by simp),
      digit?_of_isDigit (hdigits c List.mem_cons_self)]
    dsimp only
    rw [if_pos hstep, Nat.mul_comm]
    have hih := @ih true _ (fun d hd ↦ hdigits d (List.mem_cons_of_mem _ hd)) hfits
    simpa using hih

theorem readDigits?_decimals (hdigits : ∀ c ∈ digits, c.isDigit = true)
    (hfits : Nat.ofDigitChars 10 digits m < 2 ^ 96) (hscale : scale + digits.length ≤ 28) :
    readDigits? negative ⟨m, scale, true, true⟩ digits =
      Reading.finish?
        ⟨Nat.ofDigitChars 10 digits m, scale + digits.length, true, true⟩ negative := by
  induction digits generalizing m scale with
  | nil => simp [readDigits?]
  | cons c digits ih =>
    rw [List.length_cons] at hscale
    rw [Nat.ofDigitChars_cons] at hfits ⊢
    have hstep : m * 10 + (c.toNat - '0'.toNat) < 2 ^ 96 := by
      rw [Nat.mul_comm]
      exact Nat.lt_of_le_of_lt (le_ofDigitChars _ _) hfits
    rw [readDigits?, if_neg (by simp; omega), digit?_of_isDigit (hdigits c List.mem_cons_self)]
    dsimp only
    rw [if_pos hstep, Nat.mul_comm, if_pos rfl,
      ih (fun d hd ↦ hdigits d (List.mem_cons_of_mem _ hd)) hfits (by omega), List.length_cons,
      Nat.add_right_comm, Nat.add_assoc]

end

/-! ## Numbers without a sign -/

variable {d : Decimal}

theorem toList_toText_of_scale_eq_zero (hsign : d.negative = false) (hscale : d.scale = 0) :
    d.toText.toList = Nat.toDigits 10 d.mantissa := by
  rw [toText, signText, hsign, positional, if_pos hscale, hscale]
  simp [Nat.toString_eq_repr]

theorem toList_toText_of_scale_pos (hsign : d.negative = false) (hscale : 0 < d.scale) :
    d.toText.toList = Nat.toDigits 10 (d.mantissa / 10 ^ d.scale) ++
      '.' :: Text.paddedDigits (d.mantissa % 10 ^ d.scale) d.scale := by
  rw [toText, signText, hsign, positional, if_neg (Nat.ne_of_gt hscale)]
  simp [Nat.toString_eq_repr]

theorem finish?_self (hsign : d.negative = false) (hasPoint : Bool) :
    Reading.finish? ⟨d.mantissa, d.scale, true, hasPoint⟩ false = some d := by
  rw [Reading.finish?, if_pos rfl, ofParts?, dif_pos ⟨d.mantissa_lt, d.scale_le⟩]
  obtain ⟨negative, mantissa, scale, _, _⟩ := d
  cases hsign
  rfl

theorem isDigit_of_mem_toDigits {n : Nat} : ∀ c ∈ Nat.toDigits 10 n, c.isDigit = true :=
  fun _ h ↦ Nat.isDigit_of_mem_toDigits (by decide) (by decide) h

/-- The digits before the point, continued by those after it, are the digits of the number. -/
theorem readDigits?_toText (hsign : d.negative = false) :
    readDigits? false {} d.toText.toList = some d := by
  have hfits := d.mantissa_lt
  obtain hscale | hscale := Nat.eq_zero_or_pos d.scale
  · rw [toList_toText_of_scale_eq_zero hsign hscale, ← List.append_nil (Nat.toDigits 10 d.mantissa),
      readDigits?_whole isDigit_of_mem_toDigits (by rwa [Nat.ofDigitChars_ten_toDigits])]
    have hfinish := finish?_self hsign false
    rw [hscale] at hfinish
    simpa [readDigits?, List.isEmpty_eq_false_iff.mpr Nat.toDigits_ne_nil] using hfinish
  · have hlt : d.mantissa % 10 ^ d.scale < 10 ^ d.scale :=
      Nat.mod_lt _ (Nat.pow_pos (by decide))
    have hvalue : Nat.ofDigitChars 10 (Text.paddedDigits (d.mantissa % 10 ^ d.scale) d.scale)
        (d.mantissa / 10 ^ d.scale) = d.mantissa := by
      rw [ofDigitChars_paddedDigits _ hscale hlt, Nat.div_add_mod']
    have hwhole : Nat.ofDigitChars 10 (Nat.toDigits 10 (d.mantissa / 10 ^ d.scale)) 0 < 2 ^ 96 := by
      rw [Nat.ofDigitChars_ten_toDigits]
      exact Nat.lt_of_le_of_lt (Nat.div_le_self _ _) hfits
    rw [toList_toText_of_scale_pos hsign hscale, readDigits?_whole isDigit_of_mem_toDigits hwhole,
      Nat.ofDigitChars_ten_toDigits]
    have hdecimals := @readDigits?_decimals false (d.mantissa / 10 ^ d.scale) 0 _
      (fun _ ↦ isDigit_of_mem_paddedDigits)
      (by rw [hvalue]; exact hfits)
      (by rw [length_paddedDigits hscale hlt, Nat.zero_add]; exact d.scale_le)
    rw [hvalue, length_paddedDigits hscale hlt, Nat.zero_add, finish?_self hsign] at hdecimals
    simpa [readDigits?, Text.digit?, List.isEmpty_eq_false_iff.mpr Nat.toDigits_ne_nil]
      using hdecimals

theorem exists_toList_toText (hsign : d.negative = false) :
    ∃ c rest, d.toText.toList = c :: rest ∧ c.isDigit = true := by
  have hwhole (n : Nat) : ∃ c rest, Nat.toDigits 10 n = c :: rest ∧ c.isDigit = true := by
    obtain ⟨c, rest, hdigits⟩ := List.exists_cons_of_ne_nil (Nat.toDigits_ne_nil (n := n) (b := 10))
    exact ⟨c, rest, hdigits, isDigit_of_mem_toDigits c (hdigits ▸ List.mem_cons_self)⟩
  obtain hscale | hscale := Nat.eq_zero_or_pos d.scale
  · rw [toList_toText_of_scale_eq_zero hsign hscale]
    exact hwhole _
  · obtain ⟨c, rest, hdigits, hc⟩ := hwhole (d.mantissa / 10 ^ d.scale)
    rw [toList_toText_of_scale_pos hsign hscale, hdigits]
    exact ⟨c, _, rfl, hc⟩

theorem isDigit_or_eq_of_mem_toText (hsign : d.negative = false) :
    ∀ c ∈ d.toText.toList, c.isDigit = true ∨ c = '.' := by
  intro c hc
  obtain hscale | hscale := Nat.eq_zero_or_pos d.scale
  · rw [toList_toText_of_scale_eq_zero hsign hscale] at hc
    exact .inl (isDigit_of_mem_toDigits c hc)
  · rw [toList_toText_of_scale_pos hsign hscale, List.mem_append, List.mem_cons] at hc
    obtain hc | rfl | hc := hc
    · exact .inl (isDigit_of_mem_toDigits c hc)
    · exact .inr rfl
    · exact .inl (isDigit_of_mem_paddedDigits hc)

/-- **A number without a sign is read back** from the text that is written for it, with the same
decimals. -/
theorem ofNumeral?_toText (hsign : d.negative = false) : ofNumeral? d.toText = some d := by
  have hmark : (d.toText.toList.any fun c ↦ c == 'e' || c == 'E') = false := by
    rw [List.any_eq_false]
    intro c hc
    obtain hdigit | rfl := isDigit_or_eq_of_mem_toText hsign c hc
    · rintro hmark
      obtain hmark | hmark := Bool.or_eq_true_iff.mp hmark
      · cases beq_iff_eq.mp hmark
        cases hdigit
      · cases beq_iff_eq.mp hmark
        cases hdigit
    · decide
  rw [ofNumeral?, hmark, if_neg Bool.false_ne_true]
  have hread := readDigits?_toText hsign
  obtain ⟨c, rest, hdigits, hc⟩ := exists_toList_toText hsign
  rw [hdigits] at hread ⊢
  unfold ofPositional?
  split
  · rename_i hsign
    cases hsign
    cases hc
  · rename_i hsign
    cases hsign
    cases hc
  · exact hread

end Decimal

end PlanLedger
