import PlanLedger.Formula.Parser
import PlanLedger.Proofs.Decimal.Text

/-!
# Texts and their tokens

What a text is cut into depends on what follows it only at its last token: a word, a number or a
quoted text may go on. It does not go on before a blank, a bracket, a comma or an operator, and
then a text followed by another is cut into the tokens of both. So the tokens of a long text are
found piece by piece, from its end to its beginning.
-/

namespace PlanLedger.Formula

open Text (isAlphabetic isBlank)

/-! ## Classes of characters -/

/-- What holds of the characters of some code points holds of a character with one of them. -/
theorem of_toNat_mem {codes : List Nat} {p : Char → Bool} {c : Char}
    (h : ∀ n ∈ codes, p (Char.ofNat n) = true) (hc : c.toNat ∈ codes) : p c = true := by
  rw [← c.ofNat_toNat]
  exact h c.toNat hc

def blanks : List Nat :=
  [9, 10, 11, 12, 13, 0x20, 0x85, 0xa0, 0x1680, 0x2000, 0x2001, 0x2002, 0x2003, 0x2004, 0x2005,
    0x2006, 0x2007, 0x2008, 0x2009, 0x200a, 0x2028, 0x2029, 0x202f, 0x205f, 0x3000]

theorem toNat_mem_blanks {c : Char} (h : isBlank c = true) : c.toNat ∈ blanks := by
  simp only [isBlank, Bool.or_eq_true, Bool.and_eq_true, decide_eq_true_eq, beq_iff_eq] at h
  simp only [blanks, List.mem_cons, List.not_mem_nil, or_false]
  omega

def digitCodes : List Nat := [48, 49, 50, 51, 52, 53, 54, 55, 56, 57]

theorem toNat_mem_digitCodes {c : Char} (h : c.isDigit = true) : c.toNat ∈ digitCodes := by
  obtain ⟨hleast, hmost⟩ := Char.isDigit_iff_toNat.mp h
  have hleast : 48 ≤ c.toNat := hleast
  have hmost : c.toNat ≤ 57 := hmost
  simp only [digitCodes, List.mem_cons, List.not_mem_nil, or_false]
  omega

section

variable {c : Char}

theorem isBlank_eq_false_of_isWordChar (h : isWordChar c = true) : isBlank c = false := by
  cases hblank : isBlank c with
  | false => rfl
  | true =>
    have hnot : (!isWordChar c) = true :=
      of_toNat_mem (p := fun c ↦ !isWordChar c) (by decide +kernel) (toNat_mem_blanks hblank)
    rw [h] at hnot
    cases hnot

theorem isWordChar_of_isWordStart (h : isWordStart c = true) : isWordChar c = true := by
  simp only [isWordStart, isWordChar, Text.isAlphanumeric, Bool.or_eq_true] at h ⊢
  exact h.imp_left .inl

theorem isWordChar_of_isDigit (h : c.isDigit = true) : isWordChar c = true :=
  of_toNat_mem (by decide) (toNat_mem_digitCodes h)

theorem isWordStart_of_isUpper (h : c.isUpper = true) : isWordStart c = true := by
  have hmost : c.toNat ≤ 90 := (of_decide_eq_true h).2
  have halpha : c.isAlpha = true := Bool.or_eq_true_iff.mpr (.inl h)
  rw [isWordStart, isAlphabetic, if_pos (by omega), halpha]
  rfl

theorem isDigit_eq_false_of_isWordStart (h : isWordStart c = true) : c.isDigit = false := by
  cases hdigit : c.isDigit with
  | false => rfl
  | true =>
    have hnot := of_toNat_mem (p := fun c ↦ !isWordStart c) (by decide)
      (toNat_mem_digitCodes hdigit)
    rw [h] at hnot
    cases hnot

/-- The characters of symbols are no blanks and begin neither a word nor a number. -/
theorem of_singleSymbol?_eq_some {s : Symbol} (h : singleSymbol? c = some s) :
    isBlank c = false ∧ isWordStart c = false ∧ c.isDigit = false := by
  unfold singleSymbol? at h
  split at h <;> first | decide | cases h

theorem singleSymbol?_eq_none_of_isWordStart (h : isWordStart c = true) :
    singleSymbol? c = none := by
  cases hs : singleSymbol? c with
  | none => rfl
  | some s =>
    rw [(of_singleSymbol?_eq_some hs).2.1] at h
    cases h

theorem singleSymbol?_eq_none_of_isDigit (h : c.isDigit = true) : singleSymbol? c = none := by
  cases hs : singleSymbol? c with
  | none => rfl
  | some s =>
    rw [(of_singleSymbol?_eq_some hs).2.2] at h
    cases h

end

/-- Whether no word, number or quoted text goes on with a character. -/
def isBreak (c : Char) : Bool := !isWordChar c && !(['.', '+', '-', '\'', '"'].contains c)

def Breaks : List Char → Prop
  | [] => True
  | c :: _ => isBreak c = true

theorem Breaks.append {s rest : List Char} (hs : Breaks s) (hrest : Breaks rest) :
    Breaks (s ++ rest) := by
  cases s with
  | nil => exact hrest
  | cons c s => exact hs

theorem Breaks.of_mem_head? {s : List Char} {c : Char} (hs : Breaks s) (hc : c ∈ s.head?) :
    isBreak c = true := by
  cases s with
  | nil => cases hc
  | cons d s =>
    obtain rfl : d = c := Option.some.inj hc
    exact hs

theorem isBreak_iff {c : Char} : isBreak c = true ↔
    isWordChar c = false ∧ c ≠ '.' ∧ c ≠ '+' ∧ c ≠ '-' ∧ c ≠ '\'' ∧ c ≠ '"' := by
  simp [isBreak]

/-! ## Tokens without their places -/

def scan (s : List Char) : List Token := (tokens s).map Lexeme.token

/-- Where a text begins has no influence on its tokens. -/
theorem map_token_tokensFrom (offset : Nat) (s : List Char) :
    (tokensFrom offset s).map Lexeme.token = scan s := by
  rw [scan, tokens]
  generalize 0 = other
  fun_induction tokensFrom offset s generalizing other with
  | case1 => rw [tokensFrom]
  | case2 offset c rest hblank ih => rw [tokensFrom, if_pos hblank, ih]
  | case3 offset c rest hblank cut ih =>
    rw [tokensFrom, if_neg hblank, List.map_cons, List.map_cons, ih]

theorem scan_nil : scan [] = [] := by
  rw [scan, tokens, tokensFrom]
  rfl

theorem scan_blank {c : Char} {rest : List Char} (h : isBlank c = true) :
    scan (c :: rest) = scan rest := by
  rw [scan, tokens, tokensFrom, if_pos h, map_token_tokensFrom]

theorem scan_cons {c : Char} {s rest : List Char} {t : Token} (h : isBlank c = false)
    (hcut : cutToken c s = ⟨t, rest⟩) : scan (c :: s) = t :: scan rest := by
  rw [scan, tokens, tokensFrom, if_neg (by rw [h]; exact Bool.false_ne_true)]
  dsimp only
  rw [hcut, List.map_cons, map_token_tokensFrom]

theorem scan_symbol {c : Char} {symbol : Symbol} (h : singleSymbol? c = some symbol)
    (rest : List Char) : scan (c :: rest) = .symbol symbol :: scan rest :=
  scan_cons (of_singleSymbol?_eq_some h).1 (by rw [cutToken.eq_def, h])

/-! ## Cutting off words and numbers -/

section

variable {p : Char → Bool} {s rest : List Char}

theorem cutWhile_append (hs : ∀ c ∈ s, p c = true) (hrest : ∀ c ∈ rest.head?, p c = false) :
    cutWhile p (s ++ rest) = ⟨s, rest⟩ := by
  have hnone : rest.takeWhile p = [] ∧ rest.dropWhile p = rest := by
    cases rest with
    | nil => exact ⟨rfl, rfl⟩
    | cons c rest =>
      have hc : p c = false := hrest c rfl
      simp [hc]
  rw [cutWhile, List.takeWhile_append_of_pos hs, List.dropWhile_append_of_pos hs, hnone.1, hnone.2,
    List.append_nil]

theorem cutWhile_isWordChar (hs : ∀ c ∈ s, isWordChar c = true) (hrest : Breaks rest) :
    cutWhile isWordChar (s ++ rest) = ⟨s, rest⟩ := by
  exact cutWhile_append hs fun c hc ↦ (isBreak_iff.mp (hrest.of_mem_head? hc)).1

theorem Breaks.head?_isDigit (h : Breaks rest) : ∀ c ∈ rest.head?, c.isDigit = false := by
  intro c hc
  cases hdigit : c.isDigit with
  | false => rfl
  | true =>
    have hnot := (isBreak_iff.mp (h.of_mem_head? hc)).1
    rw [isWordChar_of_isDigit hdigit] at hnot
    cases hnot

theorem cutExponent_of_breaks (h : Breaks rest) : cutExponent rest = ⟨[], rest⟩ := by
  cases rest with
  | nil => rfl
  | cons c rest =>
    have hnot : ¬(c = 'e' ∨ c = 'E') := by
      have hc := (isBreak_iff.mp h).1
      rintro (rfl | rfl) <;> exact absurd hc (by decide)
    rw [cutExponent, if_neg fun hmark ↦ hnot hmark.1]

theorem cutDecimals_of_breaks (h : Breaks rest) : cutDecimals rest = ⟨[], rest⟩ := by
  unfold cutDecimals
  split
  · exact absurd rfl (isBreak_iff.mp h).2.1
  · rfl

theorem cutNumber_whole (hs : ∀ c ∈ s, c.isDigit = true) (hrest : Breaks rest) :
    cutNumber (s ++ rest) = ⟨.number (.ofList s), rest⟩ := by
  simp only [cutNumber, cutWhile_append hs hrest.head?_isDigit, cutDecimals_of_breaks hrest,
    cutExponent_of_breaks hrest, List.append_nil]

theorem cutNumber_decimals {decimals : List Char} (hs : ∀ c ∈ s, c.isDigit = true)
    (hdecimals : ∀ c ∈ decimals, c.isDigit = true) (hne : decimals ≠ []) (hrest : Breaks rest) :
    cutNumber (s ++ '.' :: (decimals ++ rest)) =
      ⟨.number (.ofList (s ++ '.' :: decimals)), rest⟩ := by
  have hpoint : ∀ c ∈ ('.' :: (decimals ++ rest)).head?, c.isDigit = false := by
    intro c hc
    obtain rfl : '.' = c := Option.some.inj hc
    rfl
  have hdigit : beginsWithDigit (decimals ++ rest) = true := by
    obtain ⟨c, more, rfl⟩ := List.exists_cons_of_ne_nil hne
    exact hdecimals c List.mem_cons_self
  simp only [cutNumber, cutWhile_append hs hpoint, cutDecimals, hdigit, if_true,
    cutWhile_append hdecimals hrest.head?_isDigit, cutExponent_of_breaks hrest, List.append_nil]

theorem cutToken_of_isDigit {c : Char} (h : c.isDigit = true) :
    cutToken c rest = cutNumber (c :: rest) := by
  have hne {d : Char} (hd : d.isDigit = false) : c ≠ d := by
    rintro rfl
    rw [h] at hd
    cases hd
  rw [cutToken.eq_def, singleSymbol?_eq_none_of_isDigit h]
  dsimp only
  rw [if_neg (hne rfl), if_neg (hne rfl), if_neg (hne rfl), if_neg (hne rfl),
    if_neg (not_or.mpr ⟨hne rfl, hne rfl⟩), if_neg (hne rfl), if_neg (hne rfl), if_pos h]

theorem cutToken_eq_word {c : Char} (h : isWordStart c = true) (s : List Char) :
    cutToken c s =
      ⟨.word (.ofList (c :: (cutWhile isWordChar s).value)), (cutWhile isWordChar s).rest⟩ := by
  have hne {d : Char} (hd : isWordStart d = false) : c ≠ d := by
    rintro rfl
    rw [h] at hd
    cases hd
  rw [cutToken.eq_def, singleSymbol?_eq_none_of_isWordStart h]
  dsimp only
  rw [if_neg (hne rfl), if_neg (hne rfl), if_neg (hne rfl), if_neg (hne rfl),
    if_neg (not_or.mpr ⟨hne rfl, hne rfl⟩), if_neg (hne rfl), if_neg (hne rfl),
    if_neg (by rw [isDigit_eq_false_of_isWordStart h]; exact Bool.false_ne_true), if_pos h]

theorem cutToken_of_isWordStart {c : Char} (h : isWordStart c = true)
    (hs : ∀ d ∈ s, isWordChar d = true) (hrest : Breaks rest) :
    cutToken c (s ++ rest) = ⟨.word (.ofList (c :: s)), rest⟩ := by
  rw [cutToken_eq_word h, cutWhile_isWordChar hs hrest]

end

/-! ## Pieces of texts -/

/-- A text is cut into the given tokens, whatever break follows it. -/
def Scans (s : List Char) (ts : List Token) : Prop :=
  ∀ rest, Breaks rest → scan (s ++ rest) = ts ++ scan rest

namespace Scans

variable {s s' : List Char} {ts ts' : List Token}

theorem append (h : Scans s ts) (h' : Scans s' ts') (hbreak : Breaks s') :
    Scans (s ++ s') (ts ++ ts') := by
  intro rest hrest
  rw [List.append_assoc, h _ (hbreak.append hrest), h' rest hrest, List.append_assoc]

theorem nil : Scans [] [] := fun _ _ ↦ rfl

theorem blank (h : Scans s ts) : Scans (' ' :: s) ts := by
  intro rest hrest
  rw [List.cons_append, scan_blank rfl, h rest hrest]

theorem cons {c : Char} {s₁ : List Char} {t : Token} (hblank : isBlank c = false)
    (hcut : ∀ rest, cutToken c (s₁ ++ rest) = ⟨t, s ++ rest⟩) (h : Scans s ts) :
    Scans (c :: s₁) (t :: ts) := by
  intro rest hrest
  rw [List.cons_append, scan_cons hblank (hcut rest), h rest hrest, List.cons_append]

theorem symbol {c : Char} {symbol : Symbol} (hc : singleSymbol? c = some symbol)
    (h : Scans s ts) : Scans (c :: s) (.symbol symbol :: ts) := by
  intro rest hrest
  rw [List.cons_append, scan_symbol hc, h rest hrest, List.cons_append]

theorem number {d : Decimal} (hsign : d.negative = false) :
    Scans d.toText.toList [.number d.toText] := by
  intro rest hrest
  obtain ⟨c, more, hdigits, hc⟩ := Decimal.exists_toList_toText hsign
  have hcut : cutNumber (d.toText.toList ++ rest) = ⟨.number d.toText, rest⟩ := by
    obtain hscale | hscale := Nat.eq_zero_or_pos d.scale
    · have hwhole := Decimal.toList_toText_of_scale_eq_zero hsign hscale
      rw [hwhole, cutNumber_whole Decimal.isDigit_of_mem_toDigits hrest, ← hwhole,
        String.ofList_toList]
    · have hlt : d.mantissa % 10 ^ d.scale < 10 ^ d.scale := Nat.mod_lt _ (Nat.pow_pos (by decide))
      have hne : Text.paddedDigits (d.mantissa % 10 ^ d.scale) d.scale ≠ [] :=
        List.ne_nil_of_length_pos (by rwa [Text.length_paddedDigits hscale hlt])
      have hparts := Decimal.toList_toText_of_scale_pos hsign hscale
      rw [hparts, List.append_assoc, List.cons_append,
        cutNumber_decimals Decimal.isDigit_of_mem_toDigits
          (fun _ ↦ Text.isDigit_of_mem_paddedDigits) hne hrest,
        ← hparts, String.ofList_toList]
  rw [hdigits, List.cons_append] at hcut ⊢
  exact scan_cons (isBlank_eq_false_of_isWordChar (isWordChar_of_isDigit hc))
    ((cutToken_of_isDigit hc).trans hcut)

end Scans

/-! ## Words -/

/-- Whether a text is a plain identifier: a letter or an underscore, then letters, digits and
underscores. -/
def isIdentifier (text : String) : Bool :=
  match text.toList with
  | c :: rest => isWordStart c && rest.all isWordChar
  | [] => false

theorem isIdentifier_iff {text : String} : isIdentifier text = true ↔
    ∃ c rest, text.toList = c :: rest ∧ isWordStart c = true ∧ ∀ d ∈ rest, isWordChar d = true := by
  rw [isIdentifier]
  cases text.toList with
  | nil => simp
  | cons c rest =>
    rw [Bool.and_eq_true, List.all_eq_true]
    constructor
    · rintro ⟨hc, hrest⟩
      exact ⟨c, rest, rfl, hc, hrest⟩
    · rintro ⟨c, rest, ⟨⟩, hc, hrest⟩
      exact ⟨hc, hrest⟩

theorem isWordChar_of_mem_identifier {text : String} (h : isIdentifier text = true) :
    ∀ c ∈ text.toList, isWordChar c = true := by
  obtain ⟨c, rest, htext, hc, hrest⟩ := isIdentifier_iff.mp h
  rw [htext]
  exact List.forall_mem_cons.mpr ⟨isWordChar_of_isWordStart hc, hrest⟩

namespace Scans

variable {text : String} {s : List Char} {ts : List Token}

theorem word (h : isIdentifier text = true) : Scans text.toList [.word text] := by
  obtain ⟨c, more, htext, hc, hmore⟩ := isIdentifier_iff.mp h
  intro rest hrest
  rw [htext, List.cons_append]
  have hcut := cutToken_of_isWordStart hc hmore hrest
  rw [← htext, String.ofList_toList] at hcut
  exact scan_cons (isBlank_eq_false_of_isWordChar (isWordChar_of_isWordStart hc)) hcut

theorem dollar (hne : text.toList ≠ []) (h : ∀ c ∈ text.toList, isWordChar c = true) :
    Scans ('$' :: text.toList) [.dollar text] := by
  intro rest hrest
  have hcut : cutToken '$' (text.toList ++ rest) = ⟨.dollar text, rest⟩ := by
    have hname : cutToken '$' (text.toList ++ rest) = cutDollar (text.toList ++ rest) := rfl
    rw [hname, cutDollar, cutWhile_isWordChar h hrest]
    dsimp only
    rw [List.isEmpty_eq_false_iff.mpr hne, if_neg Bool.false_ne_true, String.ofList_toList]
  exact scan_cons rfl hcut

end Scans

theorem scan_word_symbol {text : String} (h : isIdentifier text = true) {c : Char} {symbol : Symbol}
    (hc : singleSymbol? c = some symbol) (hbreak : isBreak c = true) (s : List Char) :
    scan (text.toList ++ c :: s) = .word text :: .symbol symbol :: scan s := by
  rw [Scans.word h (c :: s) hbreak, scan_symbol hc]
  rfl

/-! ## Ends of texts -/

/-- A text begins with a character that is no blank. -/
def Leads (s : List Char) : Prop := ∃ c ∈ s.head?, isBlank c = false

/-- A text ends with a character that is no blank. -/
def Closes (s : List Char) : Prop := ∃ c ∈ s.getLast?, isBlank c = false

section

variable {s : List Char}

theorem Leads.append (h : Leads s) (s' : List Char) : Leads (s ++ s') := by
  obtain ⟨c, hc, hblank⟩ := h
  exact ⟨c, by simp_all, hblank⟩

theorem Closes.append (s' : List Char) (h : Closes s) : Closes (s' ++ s) := by
  obtain ⟨c, hc, hblank⟩ := h
  exact ⟨c, by simp_all, hblank⟩

theorem Closes.of_forall (hne : s ≠ []) (h : ∀ c ∈ s, isBlank c = false) : Closes s :=
  ⟨s.getLast hne, List.getLast?_eq_some_getLast hne, h _ (List.getLast_mem hne)⟩

theorem Leads.trimLeft_eq (h : Leads s) : Text.trimLeft s = s := by
  obtain ⟨c, hc, hblank⟩ := h
  cases s with
  | nil => cases hc
  | cons d rest =>
    obtain rfl : d = c := Option.some.inj hc
    rw [Text.trimLeft, List.dropWhile_cons_of_neg (by simp [hblank])]

theorem Leads.trim_eq (h : Leads s) (h' : Closes s) : Text.trim s = s := by
  have hreverse : Leads s.reverse := by rwa [Leads, List.head?_reverse]
  rw [Text.trim, h.trimLeft_eq, hreverse.trimLeft_eq, List.reverse_reverse]

end

end PlanLedger.Formula
