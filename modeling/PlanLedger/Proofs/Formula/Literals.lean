import Mathlib.Data.List.TakeWhile
import Mathlib.Tactic.SplitIfs
import PlanLedger.Formula.Printer
import PlanLedger.Proofs.Formula.Scanning

/-!
# Literals

A code is a word, a number or a quoted text. Any text can be quoted, with the quotes within it
written twice, and what is cut off at a quote is the quoted text exactly. Without quotes a text is
cut off as itself only if it is an identifier or a numeral.

What is cut off a text was written at its beginning: a word or a number is written as it is, and a
quoted text with its quotes. So no token has more characters than the text it was cut off.
-/

namespace PlanLedger.Formula

open Text (isBlank)

/-! ## Quoted texts -/

def doubled (quote : Char) (s : List Char) : List Char :=
  s.flatMap fun c ↦ if c = quote then [quote, quote] else [c]

/-- A text in quotes of a kind, with the quotes within it written twice. -/
def quoteWith (quote : Char) (text : String) : String :=
  String.ofList (quote :: doubled quote text.toList ++ [quote])

/-- The two kinds of quotes. -/
def IsQuote (c : Char) : Prop := c = '\'' ∨ c = '"'

section

variable {quote c : Char} {s rest text : List Char}

theorem quote_eq_quoteWith (text : String) : Formula.quote text = quoteWith '\'' text := rfl

theorem doubled_cons_self (quote : Char) (s : List Char) :
    doubled quote (quote :: s) = quote :: quote :: doubled quote s := by
  rw [doubled, List.flatMap_cons, if_pos rfl]
  rfl

theorem doubled_cons_of_ne (h : c ≠ quote) (s : List Char) :
    doubled quote (c :: s) = c :: doubled quote s := by
  rw [doubled, List.flatMap_cons, if_neg h]
  rfl

theorem doubled_eq_self (h : quote ∉ s) : doubled quote s = s := by
  induction s with
  | nil => rfl
  | cons c s ih =>
    obtain ⟨hc, hs⟩ := List.ne_and_not_mem_of_not_mem_cons h
    rw [doubled_cons_of_ne hc.symm, ih hs]

theorem length_le_length_doubled (quote : Char) (s : List Char) :
    s.length ≤ (doubled quote s).length := by
  induction s with
  | nil => exact Nat.le_refl _
  | cons c s ih =>
    by_cases h : c = quote
    · subst h
      rw [doubled_cons_self]
      simp only [List.length_cons]
      omega
    · rw [doubled_cons_of_ne h]
      simp only [List.length_cons]
      omega

/-! ### What is cut off at a quote -/

theorem cutQuoted_twice (quote : Char) (s : List Char) : cutQuoted quote (quote :: quote :: s) =
    ⟨(cutQuoted quote s).value.map (quote :: ·), (cutQuoted quote s).rest⟩ := by
  rw [cutQuoted.eq_def]
  dsimp only
  rw [if_pos rfl, if_pos rfl]

theorem cutQuoted_close (hrest : ∀ c ∈ rest.head?, c ≠ quote) :
    cutQuoted quote (quote :: rest) = ⟨some [], rest⟩ := by
  cases rest with
  | nil => simp [cutQuoted]
  | cons c rest => simp [cutQuoted, hrest c rfl]

theorem cutQuoted_cons_of_ne (h : c ≠ quote) (s : List Char) : cutQuoted quote (c :: s) =
    ⟨(cutQuoted quote s).value.map (c :: ·), (cutQuoted quote s).rest⟩ := by
  rw [cutQuoted.eq_def]
  dsimp only
  rw [if_neg h]

private theorem exists_of_map_cons {cut : Cut (Option (List Char))}
    (h : (⟨cut.value.map (c :: ·), cut.rest⟩ : Cut _) = ⟨some text, rest⟩) :
    ∃ text', text = c :: text' ∧ cut = ⟨some text', rest⟩ := by
  obtain ⟨hvalue, hrest⟩ := Cut.mk.inj h
  obtain ⟨text', htext', rfl⟩ := Option.map_eq_some_iff.mp hvalue
  exact ⟨text', rfl, congrArg₂ Cut.mk htext' hrest⟩

theorem cutQuoted_doubled (hrest : ∀ c ∈ rest.head?, c ≠ quote) :
    cutQuoted quote (doubled quote text ++ quote :: rest) = ⟨some text, rest⟩ := by
  induction text with
  | nil => exact cutQuoted_close hrest
  | cons c text ih =>
    by_cases h : c = quote
    · subst h
      rw [doubled_cons_self, List.cons_append, List.cons_append, cutQuoted_twice, ih]
      rfl
    · rw [doubled_cons_of_ne h, List.cons_append, cutQuoted_cons_of_ne h, ih]
      rfl

private theorem of_cutQuoted_close (hs : ∀ c ∈ s.head?, c ≠ quote)
    (h : cutQuoted quote (quote :: s) = ⟨some text, rest⟩) :
    quote :: s = doubled quote text ++ quote :: rest ∧ ∀ c ∈ rest.head?, c ≠ quote := by
  rw [cutQuoted_close hs] at h
  obtain ⟨htext, rfl⟩ := Cut.mk.inj h
  obtain rfl := Option.some_inj.mp htext
  exact ⟨rfl, hs⟩

/-- **Quoted texts.** What is cut off at a quote was written with its quotes doubled, up to a quote
that is not doubled. -/
theorem cutQuoted_eq_some_iff : cutQuoted quote s = ⟨some text, rest⟩ ↔
    s = doubled quote text ++ quote :: rest ∧ ∀ c ∈ rest.head?, c ≠ quote := by
  constructor
  · intro h
    induction s using cutQuoted.induct quote generalizing text with
    | case1 => cases h
    | case2 s ih =>
      rw [cutQuoted_twice] at h
      obtain ⟨text, rfl, hcut⟩ := exists_of_map_cons h
      obtain ⟨rfl, hrest⟩ := ih hcut
      exact ⟨by rw [doubled_cons_self]; rfl, hrest⟩
    | case3 d s hne =>
      refine of_cutQuoted_close (fun c hc ↦ ?_) h
      rwa [← Option.some_inj.mp hc]
    | case4 => exact of_cutQuoted_close nofun h
    | case5 d s hne ih =>
      rw [cutQuoted_cons_of_ne hne] at h
      obtain ⟨text, rfl, hcut⟩ := exists_of_map_cons h
      obtain ⟨rfl, hrest⟩ := ih hcut
      exact ⟨by rw [doubled_cons_of_ne hne]; rfl, hrest⟩
  · rintro ⟨rfl, hrest⟩
    exact cutQuoted_doubled hrest

theorem not_mem_of_append_eq {name after : List Char}
    (h : name ++ quote :: rest = doubled quote name ++ quote :: after)
    (hrest : ∀ c ∈ rest.head?, c ≠ quote) : quote ∉ name := by
  -- From the first of the quotes on, the doubled text is ahead of the text by some quotes.
  have hahead (n : Nat) (s : List Char) :
      s ++ quote :: rest ≠ List.replicate (n + 1) quote ++ (doubled quote s ++ quote :: after) := by
    intro heq
    induction s generalizing n with
    | nil =>
      obtain ⟨-, hquotes⟩ := List.cons.inj heq
      refine hrest quote ?_ rfl
      rw [hquotes]
      cases n <;> rfl
    | cons c s ih =>
      obtain ⟨rfl, hrest⟩ := List.cons.inj heq
      refine ih (n + 1) ?_
      rw [doubled_cons_self] at hrest
      rw [List.replicate_succ', List.replicate_succ', List.append_assoc, List.append_assoc]
      exact hrest
  induction name with
  | nil => exact List.not_mem_nil
  | cons c name ih =>
    by_cases hc : c = quote
    · subst hc
      rw [doubled_cons_self] at h
      exact absurd (List.cons.inj h).2 (hahead 0 name)
    · rw [doubled_cons_of_ne hc] at h
      have hname := ih (List.cons.inj h).2
      simpa [Ne.symm hc] using hname

theorem cutToken_of_isQuote (h : IsQuote quote) (s : List Char) : cutToken quote s =
    match (cutQuoted quote s).value with
    | some text => ⟨.quoted (.ofList text), (cutQuoted quote s).rest⟩
    | none => ⟨.invalid .unterminatedText, (cutQuoted quote s).rest⟩ := by
  rcases h with rfl | rfl <;> rfl

/-! ## Numerals -/

/-- What is cut off the beginning of a text stands there. -/
def Cut.Splits (cut : Cut (List Char)) (s : List Char) : Prop := s = cut.value ++ cut.rest

theorem splits_cutWhile (p : Char → Bool) (s : List Char) : (cutWhile p s).Splits s :=
  List.takeWhile_append_dropWhile.symm

theorem splits_cutDecimals (s : List Char) : (cutDecimals s).Splits s := by
  unfold cutDecimals
  split
  · split_ifs
    · exact congrArg ('.' :: ·) (splits_cutWhile Char.isDigit _)
    · rfl
  · rfl

theorem splits_cutSign (s : List Char) : (cutSign s).Splits s := by
  unfold cutSign
  split <;> rfl

theorem splits_cutExponent (s : List Char) : (cutExponent s).Splits s := by
  unfold cutExponent
  split
  · rfl
  · rename_i c rest
    dsimp only
    split_ifs
    · have hdigits := splits_cutWhile Char.isDigit (cutSign rest).rest
      have hsign := splits_cutSign rest
      rw [Cut.Splits] at hdigits hsign ⊢
      dsimp only
      rw [List.cons_append, List.cons_append, List.append_assoc, ← hdigits, ← hsign]
    · rfl

theorem exists_cutNumber_eq (s : List Char) :
    ∃ text, (cutNumber s).value = .number text ∧ s = text.toList ++ (cutNumber s).rest := by
  refine ⟨_, rfl, ?_⟩
  have hwhole := splits_cutWhile Char.isDigit s
  have hdecimals := splits_cutDecimals (cutWhile Char.isDigit s).rest
  have hexponent := splits_cutExponent (cutDecimals (cutWhile Char.isDigit s).rest).rest
  rw [Cut.Splits] at hwhole hdecimals hexponent
  rw [String.toList_ofList, cutNumber, List.append_assoc, List.append_assoc, ← hexponent,
    ← hdecimals, ← hwhole]

/-! ### Numbers before breaks -/

theorem cutWhile_append_of_head {p : Char → Bool} (hrest : ∀ c ∈ rest.head?, p c = false) :
    cutWhile p (s ++ rest) = ⟨(cutWhile p s).value, (cutWhile p s).rest ++ rest⟩ := by
  induction s with
  | nil => exact cutWhile_append (fun _ hc ↦ absurd hc List.not_mem_nil) hrest
  | cons c s ih =>
    by_cases hc : p c = true
    · simp only [cutWhile, List.cons_append, List.takeWhile_cons_of_pos hc,
        List.dropWhile_cons_of_pos hc] at ih ⊢
      rw [(Cut.mk.inj ih).1, (Cut.mk.inj ih).2]
    · simp only [cutWhile, List.cons_append, List.takeWhile_cons_of_neg hc,
        List.dropWhile_cons_of_neg hc]

theorem beginsWithDigit_append (hrest : Breaks rest) (s : List Char) :
    beginsWithDigit (s ++ rest) = beginsWithDigit s := by
  cases s with
  | nil =>
    cases rest with
    | nil => rfl
    | cons c rest => exact hrest.head?_isDigit c rfl
  | cons c s => rfl

theorem cutDecimals_cons_of_ne (h : c ≠ '.') (s : List Char) :
    cutDecimals (c :: s) = ⟨[], c :: s⟩ := by
  unfold cutDecimals
  split
  · rename_i heq
    exact absurd (List.cons.inj heq).1 h
  · rfl

theorem cutDecimals_append (hrest : Breaks rest) (s : List Char) :
    cutDecimals (s ++ rest) = ⟨(cutDecimals s).value, (cutDecimals s).rest ++ rest⟩ := by
  cases s with
  | nil => exact cutDecimals_of_breaks hrest
  | cons c s =>
    by_cases hc : c = '.'
    · subst hc
      simp only [List.cons_append, cutDecimals, beginsWithDigit_append hrest,
        cutWhile_append_of_head hrest.head?_isDigit]
      split_ifs <;> rfl
    · rw [List.cons_append, cutDecimals_cons_of_ne hc, cutDecimals_cons_of_ne hc]
      rfl

theorem cutSign_cons_of_ne (hplus : c ≠ '+') (hminus : c ≠ '-') (s : List Char) :
    cutSign (c :: s) = ⟨[], c :: s⟩ := by
  unfold cutSign
  split
  · rename_i heq
    exact absurd (List.cons.inj heq).1 hplus
  · rename_i heq
    exact absurd (List.cons.inj heq).1 hminus
  · rfl

theorem cutSign_of_breaks (hrest : Breaks rest) : cutSign rest = ⟨[], rest⟩ := by
  cases rest with
  | nil => rfl
  | cons c rest =>
    obtain ⟨-, -, hplus, hminus, -⟩ := isBreak_iff.mp hrest
    exact cutSign_cons_of_ne hplus hminus rest

theorem cutSign_append (hrest : Breaks rest) (s : List Char) :
    cutSign (s ++ rest) = ⟨(cutSign s).value, (cutSign s).rest ++ rest⟩ := by
  cases s with
  | nil => exact cutSign_of_breaks hrest
  | cons c s =>
    by_cases hplus : c = '+'
    · subst hplus
      rfl
    by_cases hminus : c = '-'
    · subst hminus
      rfl
    rw [List.cons_append, cutSign_cons_of_ne hplus hminus, cutSign_cons_of_ne hplus hminus]
    rfl

theorem cutExponent_append (hrest : Breaks rest) (s : List Char) :
    cutExponent (s ++ rest) = ⟨(cutExponent s).value, (cutExponent s).rest ++ rest⟩ := by
  cases s with
  | nil => exact cutExponent_of_breaks hrest
  | cons c s =>
    simp only [List.cons_append, cutExponent, cutSign_append hrest, beginsWithDigit_append hrest,
      cutWhile_append_of_head hrest.head?_isDigit]
    split_ifs <;> rfl

theorem cutNumber_append (hrest : Breaks rest) (s : List Char) :
    cutNumber (s ++ rest) = ⟨(cutNumber s).value, (cutNumber s).rest ++ rest⟩ := by
  simp only [cutNumber, cutWhile_append_of_head hrest.head?_isDigit, cutDecimals_append hrest,
    cutExponent_append hrest]

/-- Whether a text is a numeral: digits with decimals and an exponent if there are any. -/
def isNumeral (text : String) : Bool :=
  match text.toList with
  | c :: rest =>
    (c.isDigit || c == '.' && beginsWithDigit rest) && cutNumber (c :: rest) == ⟨.number text, []⟩
  | [] => false

theorem cutToken_of_beginsNumber (h : c.isDigit = true ∨ c = '.' ∧ beginsWithDigit s = true) :
    isBlank c = false ∧ cutToken c s = cutNumber (c :: s) := by
  rcases h with hdigit | ⟨rfl, hdigit⟩
  · exact ⟨isBlank_eq_false_of_isWordChar (isWordChar_of_isDigit hdigit),
      cutToken_of_isDigit hdigit⟩
  · refine ⟨rfl, ?_⟩
    have hcut : cutToken '.' s =
        if beginsWithDigit s then cutNumber ('.' :: s) else ⟨.symbol .dot, s⟩ := rfl
    rw [hcut, if_pos hdigit]

theorem isNumeral_iff {text : String} : isNumeral text = true ↔ ∃ c s, text.toList = c :: s ∧
    (c.isDigit = true ∨ c = '.' ∧ beginsWithDigit s = true) ∧
      cutNumber text.toList = ⟨.number text, []⟩ := by
  rw [isNumeral]
  cases text.toList with
  | nil => simp
  | cons c s => simp [and_assoc]

end

namespace Scans

variable {text : String}

theorem numeral (h : isNumeral text = true) : Scans text.toList [.number text] := by
  obtain ⟨c, s, htext, hbegins, hcut⟩ := isNumeral_iff.mp h
  intro rest hrest
  have hbegins' : c.isDigit = true ∨ c = '.' ∧ beginsWithDigit (s ++ rest) = true := by
    rwa [beginsWithDigit_append hrest]
  obtain ⟨hblank, htoken⟩ := cutToken_of_beginsNumber hbegins'
  have happend := cutNumber_append hrest text.toList
  rw [hcut, htext, List.cons_append, ← htoken] at happend
  rw [htext]
  exact scan_cons hblank happend

theorem quoteWith {quote : Char} (hquote : IsQuote quote) (text : String) :
    Scans (quoteWith quote text).toList [.quoted text] := by
  intro rest hrest
  have hhead : ∀ c ∈ rest.head?, c ≠ quote := by
    intro c hc
    obtain ⟨-, -, -, -, hsingle, hdouble⟩ := isBreak_iff.mp (hrest.of_mem_head? hc)
    rcases hquote with rfl | rfl
    · exact hsingle
    · exact hdouble
  have hcut : cutQuoted quote (doubled quote text.toList ++ quote :: rest) =
      ⟨some text.toList, rest⟩ := cutQuoted_doubled hhead
  have htoken : cutToken quote (doubled quote text.toList ++ quote :: rest) =
      ⟨.quoted text, rest⟩ := by
    rw [cutToken_of_isQuote hquote, hcut]
    dsimp only
    rw [String.ofList_toList]
  have hblank : isBlank quote = false := by
    rcases hquote with rfl | rfl <;> rfl
  rw [Formula.quoteWith, String.toList_ofList, List.cons_append, List.cons_append,
    List.append_assoc, List.singleton_append]
  exact scan_cons hblank htoken

theorem name {name : String} (h : '\'' ∉ name.toList) :
    Scans ("'" ++ name ++ "'").toList [.quoted name] := by
  have htext : (Formula.quoteWith '\'' name).toList = ("'" ++ name ++ "'").toList := by
    simp [Formula.quoteWith, doubled_eq_self h]
  rw [← htext]
  exact quoteWith (.inl rfl) name

end Scans

/-! ## What tokens were written as -/

section

variable {c : Char} {s rest : List Char} {text : String} {t : Token} {ts : List Token}

private theorem codeOf?_cutToken_eq_none (hquote : ¬IsQuote c)
    (hnumber : ¬(c.isDigit = true ∨ c = '.' ∧ beginsWithDigit s = true))
    (hword : isWordStart c = false) : codeOf? (cutToken c s).value = none := by
  have hsymbol (rest : List Char) (next : Char) {short long : Token} (hshort : codeOf? short = none)
      (hlong : codeOf? long = none) : codeOf? (cutSymbol rest next short long).value = none := by
    unfold cutSymbol
    split
    · split_ifs
      · exact hlong
      · exact hshort
    · exact hshort
  rw [cutToken.eq_def]
  split
  · rfl
  · split_ifs with _ _ _ _ hmark hdot hdigit _ hdigit' hstart
    · exact hsymbol _ _ rfl rfl
    · exact hsymbol _ _ rfl rfl
    · split <;> rfl
    · exact hsymbol _ _ rfl rfl
    · exact absurd hmark hquote
    · exact absurd (.inr ⟨hdot, hdigit⟩) hnumber
    · rfl
    · unfold cutDollar
      dsimp only
      split_ifs <;> rfl
    · exact absurd (.inl hdigit') hnumber
    · rw [hword] at hstart
      cases hstart
    · rfl

/-- A token that stands for a code is a quoted text, a word or a number, and it was written with
its quotes or as it is. -/
theorem cutToken_of_codeOf? (h : codeOf? (cutToken c s).value = some text) :
    (∃ quote, IsQuote quote ∧
      c :: s = quote :: (doubled quote text.toList ++ quote :: (cutToken c s).rest)) ∨
    c :: s = text.toList ++ (cutToken c s).rest ∧
      (isIdentifier text = true ∨
        (c.isDigit = true ∨ c = '.' ∧ beginsWithDigit s = true) ∧
          (cutNumber (c :: s)).value = .number text) := by
  by_cases hquote : IsQuote c
  · have hcut := cutToken_of_isQuote hquote s
    generalize hvalue : (cutQuoted c s).value = value at hcut
    cases value with
    | none =>
      rw [hcut] at h
      cases h
    | some chars =>
      rw [hcut] at h ⊢
      obtain rfl := Option.some_inj.mp h
      obtain ⟨hs, -⟩ := cutQuoted_eq_some_iff.mp (congrArg₂ Cut.mk hvalue rfl)
      refine .inl ⟨c, hquote, ?_⟩
      rw [String.toList_ofList]
      exact congrArg (c :: ·) hs
  by_cases hnumber : c.isDigit = true ∨ c = '.' ∧ beginsWithDigit s = true
  · obtain ⟨text', hvalue, hs⟩ := exists_cutNumber_eq (c :: s)
    rw [(cutToken_of_beginsNumber hnumber).2] at h ⊢
    rw [hvalue] at h
    obtain rfl := Option.some_inj.mp h
    exact .inr ⟨hs, .inr ⟨hnumber, hvalue⟩⟩
  by_cases hword : isWordStart c = true
  · rw [cutToken_eq_word hword] at h ⊢
    obtain rfl := Option.some_inj.mp h
    rw [String.toList_ofList]
    refine .inr ⟨congrArg (c :: ·) (splits_cutWhile isWordChar s), .inl ?_⟩
    refine isIdentifier_iff.mpr ⟨c, _, String.toList_ofList, hword, fun d hd ↦ ?_⟩
    exact List.mem_takeWhile_imp hd
  · rw [codeOf?_cutToken_eq_none hquote hnumber (by simpa using hword)] at h
    cases h

theorem scan_cons_eq (h : isBlank c = false) :
    scan (c :: s) = (cutToken c s).value :: scan (cutToken c s).rest :=
  scan_cons h rfl

/-- The first token of a text was cut off at its first character that is no blank. -/
theorem exists_of_scan_eq_cons (h : scan s = t :: ts) : ∃ blanks c rest, s = blanks ++ c :: rest ∧
    (cutToken c rest).value = t ∧ scan (cutToken c rest).rest = ts := by
  induction s with
  | nil =>
    rw [scan_nil] at h
    cases h
  | cons c s ih =>
    by_cases hblank : isBlank c = true
    · rw [scan_blank hblank] at h
      obtain ⟨blanks, d, rest, rfl, hcut⟩ := ih h
      exact ⟨c :: blanks, d, rest, rfl, hcut⟩
    · rw [scan_cons_eq (by simpa using hblank)] at h
      obtain ⟨hvalue, hrest⟩ := List.cons.inj h
      exact ⟨[], c, s, rfl, hvalue, hrest⟩

theorem exists_shorter_of_scan_eq_cons (h : scan s = t :: ts) :
    ∃ rest, scan rest = ts ∧ rest.length < s.length := by
  obtain ⟨blanks, c, rest, rfl, -, hrest⟩ := exists_of_scan_eq_cons h
  refine ⟨_, hrest, ?_⟩
  have hle := length_cutToken_rest c rest
  rw [List.length_append, List.length_cons]
  omega

theorem length_le_of_codeOf? (h : scan s = t :: ts) (ht : codeOf? t = some text) :
    text.toList.length ≤ s.length := by
  obtain ⟨blanks, c, rest, rfl, rfl, -⟩ := exists_of_scan_eq_cons h
  rw [List.length_append]
  refine Nat.le_trans ?_ (Nat.le_add_left _ _)
  rcases cutToken_of_codeOf? ht with ⟨quote, -, hs⟩ | ⟨hs, -⟩
  · have hdoubled := length_le_length_doubled quote text.toList
    rw [hs, List.length_cons, List.length_append]
    omega
  · rw [hs, List.length_append]
    exact Nat.le_add_right _ _

/-- Whether a text is cut off as a code when it is written without quotes. -/
def isCode (text : String) : Bool := isIdentifier text || isNumeral text

/-- **Codes without quotes.** If a text before a break is cut off as it is, it is an identifier or a
numeral. -/
theorem isCode_of_written (hrest : Breaks rest) (hs : c :: s = text.toList ++ rest)
    (hwritten : c :: s = text.toList ++ (cutToken c s).rest)
    (hcode : isIdentifier text = true ∨ (c.isDigit = true ∨ c = '.' ∧ beginsWithDigit s = true) ∧
      (cutNumber (c :: s)).value = .number text) :
    isCode text = true ∧ (cutToken c s).rest = rest := by
  have hafter : (cutToken c s).rest = rest := by
    rw [hs] at hwritten
    exact (List.append_cancel_left hwritten).symm
  refine ⟨Bool.or_eq_true_iff.mpr (hcode.imp_right ?_), hafter⟩
  rintro ⟨hbegins, hnumber⟩
  have hcut : cutNumber text.toList = ⟨.number text, []⟩ := by
    rw [hs, cutNumber_append hrest] at hnumber
    obtain ⟨text', hvalue, htext⟩ := exists_cutNumber_eq text.toList
    obtain rfl : text' = text := Token.number.inj (hvalue.symm.trans hnumber)
    exact congrArg₂ Cut.mk hnumber (List.self_eq_append_right.mp htext)
  -- The text is not empty, since some of the characters are cut off.
  have hle := length_cutToken_rest c s
  rw [hafter] at hle
  match htext : text.toList with
  | [] =>
    rw [htext, List.nil_append] at hs
    rw [← hs, List.length_cons] at hle
    omega
  | d :: more =>
    rw [htext, List.cons_append] at hs
    obtain ⟨rfl, rfl⟩ := List.cons.inj hs
    rw [beginsWithDigit_append hrest] at hbegins
    exact isNumeral_iff.mpr ⟨c, more, htext, hbegins, hcut⟩

theorem Scans.code (h : isCode text = true) :
    ∃ t, codeOf? t = some text ∧ Scans text.toList [t] := by
  rcases Bool.or_eq_true_iff.mp h with hword | hnumeral
  · exact ⟨.word text, rfl, .word hword⟩
  · exact ⟨.number text, rfl, .numeral hnumeral⟩

theorem isCode_of_scan_plain {close : Char} {symbol : Symbol}
    (hclose : singleSymbol? close = some symbol) (hbreak : Breaks (close :: rest))
    (hplain : isPlainCode text = true) (h : scan (text.toList ++ close :: rest) = t :: ts)
    (ht : codeOf? t = some text) : isCode text = true ∧ scan (close :: rest) = ts := by
  have hchars : ∀ d ∈ text.toList, isWordChar d = true := List.all_eq_true.mp hplain
  match htext : text.toList with
  | [] =>
    rw [htext, List.nil_append, scan_symbol hclose] at h
    rw [← (List.cons.inj h).1] at ht
    cases ht
  | d :: more =>
    have hd : isWordChar d = true := by
      rw [htext] at hchars
      exact hchars d List.mem_cons_self
    rw [htext, List.cons_append, scan_cons_eq (isBlank_eq_false_of_isWordChar hd)] at h
    obtain ⟨rfl, hafter⟩ := List.cons.inj h
    rcases cutToken_of_codeOf? ht with ⟨quote, hquote, hwritten⟩ | ⟨hwritten, hcode⟩
    · rw [(List.cons.inj hwritten).1] at hd
      rcases hquote with rfl | rfl <;> exact absurd hd (by decide)
    · have hs : d :: (more ++ close :: rest) = text.toList ++ close :: rest := by
        rw [htext, List.cons_append]
      obtain ⟨hcode, hrest⟩ := isCode_of_written hbreak hs hwritten hcode
      rw [hrest] at hafter
      exact ⟨hcode, hafter⟩

theorem isCode_of_scan_bracket (h : scan (text.toList ++ [']']) = [t, .symbol .rightBracket])
    (ht : codeOf? t = some text) : isCode text = true := by
  obtain ⟨blanks, c, s, hs, rfl, hafter⟩ := exists_of_scan_eq_cons h
  -- Something is left for the bracket, so there is room for the text and nothing else.
  have hleft : 0 < (cutToken c s).rest.length := by
    obtain ⟨after, -, hlt⟩ := exists_shorter_of_scan_eq_cons hafter
    omega
  have hlength := congrArg List.length hs
  rw [List.length_append, List.length_append, List.length_singleton] at hlength
  rcases cutToken_of_codeOf? ht with ⟨quote, -, hwritten⟩ | ⟨hwritten, hcode⟩
  · have hdoubled := length_le_length_doubled quote text.toList
    rw [hwritten, List.length_cons, List.length_append, List.length_cons] at hlength
    omega
  · rw [hwritten, List.length_append] at hlength
    obtain rfl : blanks = [] := List.length_eq_zero_iff.mp (by omega)
    exact (isCode_of_written (show Breaks [']'] from rfl) hs.symm hwritten hcode).1

end

end PlanLedger.Formula
