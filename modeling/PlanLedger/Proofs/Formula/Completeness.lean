import PlanLedger.Formula.Reading
import PlanLedger.Proofs.Formula.Soundness

/-!
# What the grammar spells is read

A reader of expressions stops at the first symbol that cannot continue what it reads. So it takes
up all tokens of a phrase if the symbol after the phrase binds less tightly than the operators of
the phrase; a word, a comma and a closing parenthesis never continue anything. For the operands of
a level the reader goes on with the operators that follow, and what it makes of the operands so
far is what the grammar makes of them, since both group from the left.
-/

namespace PlanLedger.Formula

/-! ## Where a phrase ends -/

/-- How tightly a symbol binds what stands before it. Symbols that bind nothing have strength
zero. -/
def Symbol.strength : Symbol → Nat
  | dot => 5
  | leftParen => 5
  | colon => 5
  | caret => 4
  | star => 3
  | slash => 3
  | plus => 2
  | minus => 2
  | equal => 1
  | notEqual => 1
  | less => 1
  | lessEqual => 1
  | greater => 1
  | greaterEqual => 1
  | _ => 0

/-- The strength of the operators of a level. -/
def Level.strength : Level → Nat
  | comparison => 1
  | sum => 2
  | product => 3

theorem Level.strength_of_op? {level : Level} {s : Symbol} {op : BinaryOp}
    (h : level.op? s = some op) : s.strength = level.strength := by
  cases level <;> cases s <;> first | rfl | cases h

/-- A list of tokens does not begin with a symbol of the given strength or a greater one. -/
def Stops (strength : Nat) (ts : List Lexeme) : Prop :=
  ∀ s, startsWith s ts = true → s.strength < strength

section

variable {strength : Nat} {ts used rest : List Lexeme} {t : Lexeme}

theorem Stops.mono {weaker : Nat} (h : Stops weaker ts) (hle : weaker ≤ strength) :
    Stops strength ts := fun s hs ↦ Nat.lt_of_lt_of_le (h s hs) hle

theorem startsWith_symbol (s : Symbol) (o : Nat) (ts : List Lexeme) :
    startsWith s (⟨.symbol s, o⟩ :: ts) = true := beq_self_eq_true _

theorem Stops.nil : Stops strength [] := nofun

theorem Stops.symbol {s : Symbol} {o : Nat} (h : s.strength < strength) :
    Stops strength (⟨.symbol s, o⟩ :: rest) := by
  intro s' hs'
  have hsame := beq_iff_eq.mp hs'
  cases hsame
  exact h

theorem Stops.keyword {k : Keyword} (h : isKeyword k t.token = true) :
    Stops strength (t :: rest) := by
  intro s hs
  rw [beq_iff_eq.mp hs] at h
  cases h

theorem Stops.startsWith_eq_false {s : Symbol} (h : Stops strength ts)
    (hs : strength ≤ s.strength) : startsWith s ts = false := by
  cases hstarts : startsWith s ts with
  | false => rfl
  | true => exact absurd (h s hstarts) (by omega)

theorem Stops.opOf?_eq_none {level : Level} (h : Stops level.strength ts) :
    level.opOf? ts = none := by
  cases hop : level.opOf? ts with
  | none => rfl
  | some op =>
    obtain ⟨s, o, more, rfl, hop⟩ := Level.opOf?_eq_some hop
    have hlt := h s (beq_self_eq_true _)
    rw [Level.strength_of_op? hop] at hlt
    exact absurd hlt (Nat.lt_irrefl _)

/-! ## Chains -/

theorem parseChain_of_stops {level : Level} {e : Expr} (h : Stops level.strength ts) :
    GivesMore (parseChain level e ts) e ts := by
  rw [parseChain]
  split
  · rename_i op hop
    rw [h.opOf?_eq_none] at hop
    cases hop
  · exact ⟨_, rfl, rfl, rfl⟩

theorem parseChain_cons {level : Level} {s : Symbol} {op : BinaryOp} {a b e : Expr} {o : Nat}
    {more after : List Lexeme} (hop : level.op? s = some op)
    (hoperand : Gives (parseOperand level more) b after)
    (hchain : GivesMore (parseChain level (.binary op a b) after) e rest) :
    GivesMore (parseChain level a (⟨.symbol s, o⟩ :: more)) e rest := by
  obtain ⟨_, hoperand⟩ := hoperand.eq_ok
  obtain ⟨_, hchain⟩ := hchain.eq_ok
  rw [parseChain]
  split
  · rename_i op' hop'
    cases hop.symm.trans hop'
    dsimp only [List.tail_cons]
    rw [hoperand, ok_bind]
    dsimp only
    rw [hchain]
    exact ⟨_, rfl, rfl, rfl⟩
  · rename_i hnone
    cases hop.symm.trans hnone

end

/-! ## Words -/

theorem Function.ofName?_ne_caseWhen {word : String} {f : Function} (hf : ofName? word = some f)
    (hnot : f ≠ .caseWhen) : word.toUpper ≠ Keyword.caseWord.text := by
  intro hcase
  rw [ofName?, hcase] at hf
  exact hnot (Option.some.inj hf.symm)

theorem Function.ofName?_ne_reference {word : String} {f : Function} (hf : ofName? word = some f) :
    word.toUpper ≠ "REF" := by
  intro href
  rw [ofName?, href] at hf
  cases hf

theorem isKeyword_eq_true {k : Keyword} {t : Token} (h : isKeyword k t = true) :
    ∃ word, t = .word word ∧ word.toUpper = k.text := by
  unfold isKeyword at h
  split at h
  · exact ⟨_, rfl, beq_iff_eq.mp h⟩
  · cases h

theorem Keyword.text_injective {k k' : Keyword} (h : k.text = k'.text) : k = k' := by
  revert h
  cases k <;> cases k' <;> decide

/-- A word is one keyword at most. -/
theorem isKeyword_eq_false {k k' : Keyword} {t : Token} (h : isKeyword k t = true) (hne : k' ≠ k) :
    isKeyword k' t = false := by
  obtain ⟨word, rfl, hword⟩ := isKeyword_eq_true h
  rw [isKeyword, hword]
  exact beq_eq_false_iff_ne.mpr fun hsame ↦ hne (Keyword.text_injective hsame).symm

theorem startsWithKeyword_cons {k : Keyword} {t : Lexeme} {ts : List Lexeme}
    (h : isKeyword k t.token = true) : startsWithKeyword k (t :: ts) = true := h

theorem startsWithKeyword_ne {k k' : Keyword} {t : Lexeme} {ts : List Lexeme}
    (h : isKeyword k t.token = true) (hne : k' ≠ k) : ¬startsWithKeyword k' (t :: ts) = true := by
  rw [startsWithKeyword, isKeyword_eq_false h hne]
  exact Bool.false_ne_true

theorem toUpper_eq_self {c : Char} (h : (c.isUpper || c.isDigit || c == '_') = true) :
    c.toUpper = c := by
  refine dif_neg fun hlower ↦ ?_
  rw [Bool.or_eq_true, Bool.or_eq_true, beq_iff_eq] at h
  obtain (hupper | hdigit) | rfl := h
  · exact absurd (UInt32.le_trans hlower.1 (of_decide_eq_true hupper).2) (by decide)
  · have hmost := of_decide_eq_true (Bool.and_eq_true_iff.mp hdigit).2
    exact absurd (UInt32.le_trans hlower.1 hmost) (by decide)
  · exact absurd hlower.1 (by decide)

theorem toUpper_of_isConstantName {name : String} (h : isConstantName name = true) :
    name.toUpper = name := by
  refine String.toList_inj.mp ?_
  rw [String.toUpper, String.toList_map]
  rw [isConstantName] at h
  split at h
  · rename_i c rest hname
    obtain ⟨hc, hrest⟩ := Bool.and_eq_true_iff.mp h
    have hchar : ∀ d ∈ c :: rest, d.toUpper = d := by
      intro d hd
      obtain rfl | hd := List.mem_cons.mp hd
      · exact toUpper_eq_self (by rw [hc]; rfl)
      · exact toUpper_eq_self (List.all_eq_true.mp hrest d hd)
    rw [hname]
    exact (List.map_congr_left hchar).trans (List.map_id _)
  · cases h

section

variable {word : String} {ts rest : List Lexeme}

theorem parseWord_aggregate {kind : Aggregate} {e : Expr} {o : Nat}
    (hkind : Aggregate.ofName? word = some kind) (h : Gives (parseAggregate kind ts) e rest) :
    GivesMore (parseWord word (⟨.symbol .colon, o⟩ :: ts)) e rest := by
  obtain ⟨_, hread⟩ := h.eq_ok
  rw [parseWord.eq_def, hkind, startsWith_symbol]
  simp only [List.tail_cons, hread, ok_bind]
  exact ⟨_, rfl, rfl, rfl⟩

theorem parseWord_caseWhen {t : Lexeme} {args : List Expr}
    (hword : word.toUpper = Keyword.caseWord.text) (ht : isKeyword .whenWord t.token = true)
    (h : Gives (parseArms ts) args rest) :
    GivesMore (parseWord word (t :: ts)) (.call Function.caseWhen.name args) rest := by
  obtain ⟨_, hread⟩ := h.eq_ok
  obtain ⟨_, hwhen⟩ := expectKeyword_cons ht ts
  rw [parseWord.eq_def]
  split
  · rename_i hcolon
    rw [(Stops.keyword ht).startsWith_eq_false (Nat.le_refl _)] at hcolon
    cases hcolon
  · rw [if_pos hword, hwhen, ok_bind]
    dsimp only
    rw [hread, ok_bind]
    exact ⟨_, rfl, rfl, rfl⟩

theorem parseWord_reference {e : Expr} {o : Nat} (hword : word.toUpper = "REF")
    (h : Gives (parseReference ts) e rest) :
    GivesMore (parseWord word (⟨.symbol .leftParen, o⟩ :: ts)) e rest := by
  obtain ⟨_, hread⟩ := h.eq_ok
  have hnotCase : word.toUpper ≠ Keyword.caseWord.text := by
    rw [hword]
    decide
  rw [parseWord.eq_def]
  split
  · rename_i hcolon
    cases hcolon
  · rw [if_neg hnotCase, if_pos (startsWith_symbol _ _ _), if_pos hword]
    simp only [List.tail_cons, hread, ok_bind]
    exact ⟨_, rfl, rfl, rfl⟩

theorem parseWord_call {f : Function} {args : List Expr} {o : Nat}
    (hf : Function.ofName? word = some f) (hnot : f ≠ .caseWhen)
    (harity : f.arity.admits args.length = true) (h : Gives (parseArgs ts) args rest) :
    GivesMore (parseWord word (⟨.symbol .leftParen, o⟩ :: ts)) (.call f.name args) rest := by
  obtain ⟨_, hread⟩ := h.eq_ok
  obtain ⟨_, hopen⟩ := expectSymbol_cons .leftParen o ts
  rw [parseWord.eq_def]
  split
  · rename_i hcolon
    cases hcolon
  · rw [if_neg (Function.ofName?_ne_caseWhen hf hnot), if_pos (startsWith_symbol _ _ _),
      if_neg (Function.ofName?_ne_reference hf), hf]
    dsimp only
    rw [hopen, ok_bind]
    dsimp only
    rw [hread, ok_bind]
    dsimp only
    rw [Function.checkArity, if_pos harity]
    exact ⟨_, rfl, rfl, rfl⟩

theorem parseWord_constant (hname : isConstantName word = true)
    (hnot : ∀ k : Keyword, word ≠ k.text) (hstops : Stops 5 ts) :
    GivesMore (parseWord word ts) (.constant word) ts := by
  have hupper := toUpper_of_isConstantName hname
  have hkeyword : Keyword.ofCapitals? word.toUpper = none := by
    rw [hupper]
    refine List.find?_eq_none.mpr fun k _ hk ↦ hnot k ?_
    exact (beq_iff_eq.mp hk).symm
  rw [parseWord.eq_def]
  split
  · rename_i hcolon
    rw [hstops.startsWith_eq_false (by decide)] at hcolon
    cases hcolon
  · rw [if_neg (by rw [hupper]; exact hnot .caseWord),
      if_neg (by rw [hstops.startsWith_eq_false (by decide)]; exact Bool.false_ne_true)]
    rw [parseConstant, hkeyword]
    dsimp only
    rw [hstops.startsWith_eq_false (by decide), if_neg Bool.false_ne_true, if_pos hname]
    exact ⟨_, rfl, rfl, rfl⟩

end

/-! ## Phrases -/

/-- The reader of a phrase takes up some tokens and makes of them what is given, where the tokens
that follow do not continue the phrase. The reader of a level makes the same of them and what
follows as its chain makes of the given expression and what follows. -/
def Phrase.Reads : (p : Phrase) → (used : List Lexeme) → p.Meaning → Prop
  | level l, used, a => ∀ rest after e, Stops (l.strength + 1) after →
      GivesMore (parseChain l a after) e rest → Gives (parseLevel l (used ++ after)) e rest
  | operand l, used, e => ∀ rest, Stops (l.strength + 1) rest →
      Gives (parseOperand l (used ++ rest)) e rest
  | power, used, e => ∀ rest, Stops 4 rest → Gives (parsePower (used ++ rest)) e rest
  | signed, used, e => ∀ rest, Stops 5 rest → Gives (parseSigned (used ++ rest)) e rest
  | primary, used, e => ∀ rest, Stops 5 rest → Gives (parsePrimary (used ++ rest)) e rest
  | args, used, es => ∀ o rest, Gives (parseArgs (used ++ ⟨.symbol .rightParen, o⟩ :: rest)) es rest
  | list, used, es => ∀ o rest, Gives (parseList (used ++ ⟨.symbol .rightParen, o⟩ :: rest)) es
      (⟨.symbol .rightParen, o⟩ :: rest)
  | arms, used, es => ∀ rest, Gives (parseArms (used ++ rest)) es rest

/-- The reader of a phrase takes up some tokens wherever they stand in the text. -/
def Phrase.Accepts (p : Phrase) (tokens : List Token) (m : p.Meaning) : Prop :=
  ∀ used : List Lexeme, used.map Lexeme.token = tokens → p.Reads used m

theorem Phrase.Accepts.expr {tokens : List Token} {e : Expr} (h : Phrase.expr.Accepts tokens e)
    {used : List Lexeme} (hused : used.map Lexeme.token = tokens) (rest : List Lexeme)
    (hrest : Stops 1 rest) : Gives (parseLevel .comparison (used ++ rest)) e rest :=
  h used hused rest rest e (hrest.mono (by decide)) (parseChain_of_stops hrest)

/-- A phrase other than a list of arguments begins with a token, which does not close
parentheses. -/
theorem Derives.exists_cons {p : Phrase} {tokens : List Token} {m : p.Meaning}
    (h : Derives p tokens m) (hp : p ≠ .args) :
    ∃ t more, tokens = t :: more ∧ t ≠ .symbol .rightParen := by
  induction h with
  | single _ ih => exact ih (by simp)
  | sum _ ih => exact ih (by simp)
  | product _ ih => exact ih (by simp)
  | power _ ih => exact ih (by simp)
  | base _ ih => exact ih (by simp)
  | unsigned _ ih => exact ih (by simp)
  | one _ ih => exact ih (by simp)
  | chain _ _ _ ih | raise _ _ ih | more _ _ ih =>
    obtain ⟨t, more, rfl, ht⟩ := ih (by simp)
    exact ⟨t, _, rfl, ht⟩
  | lastArm _ _ _ _ ih =>
    obtain ⟨t, more, rfl, ht⟩ := ih (by simp)
    exact ⟨t, _, rfl, ht⟩
  | elseArm _ _ _ _ _ _ ih =>
    obtain ⟨t, more, rfl, ht⟩ := ih (by simp)
    exact ⟨t, _, rfl, ht⟩
  | moreArms _ _ _ _ _ ih =>
    obtain ⟨t, more, rfl, ht⟩ := ih (by simp)
    exact ⟨t, _, rfl, ht⟩
  | cell href =>
    obtain ⟨inside, rfl⟩ := href.exists_cons
    exact ⟨_, _, rfl, by simp⟩
  | caseWhen hcase _ _ =>
    obtain ⟨word, rfl, -⟩ := isKeyword_eq_true hcase
    exact ⟨_, _, rfl, by simp⟩
  | noArgs => exact absurd rfl hp
  | someArgs _ _ => exact absurd rfl hp
  | _ => exact ⟨_, _, rfl, by simp⟩

section

variable {ts used rest : List Lexeme} {t : Lexeme}

theorem parseSigned_of_primary {e : Expr} (h : Gives (parsePrimary ts) e rest) :
    Gives (parseSigned ts) e rest := by
  obtain ⟨_, hprimary⟩ := h.eq_ok
  rw [parseSigned.eq_def]
  split
  · rw [parsePrimary] at hprimary
    · exact absurd hprimary unexpectedAt_ne_ok
    all_goals simp
  · rw [parsePrimary] at hprimary
    · exact absurd hprimary unexpectedAt_ne_ok
    all_goals simp
  · exact h

theorem parseSigned_minus {e : Expr} {o : Nat} (h : Gives (parseSigned ts) e rest) :
    Gives (parseSigned (⟨.symbol .minus, o⟩ :: ts)) (.negate e) rest := by
  obtain ⟨_, hread⟩ := h.eq_ok
  rw [parseSigned, hread, ok_bind]
  exact ⟨_, rfl, rfl, rfl⟩

theorem parseSigned_plus {e : Expr} {o : Nat} (h : Gives (parseSigned ts) e rest) :
    Gives (parseSigned (⟨.symbol .plus, o⟩ :: ts)) e rest := by
  obtain ⟨_, hread⟩ := h.eq_ok
  rw [parseSigned, hread, ok_bind]
  exact ⟨_, rfl, rfl, rfl⟩

theorem parsePrimary_cell {ref : CellRef} (href : DerivesRef (used.map Lexeme.token) ref)
    (rest : List Lexeme) : Gives (parsePrimary (used ++ rest)) (.cell ref) rest := by
  have hgives := parseCellRef_append href rest
  obtain ⟨inside, hinside⟩ := href.exists_cons
  obtain ⟨⟨_, o⟩, used, rfl, rfl, rfl⟩ := List.map_eq_cons_iff.mp hinside
  rw [List.cons_append] at hgives ⊢
  obtain ⟨_, hread⟩ := hgives.eq_ok
  rw [parsePrimary, hread, ok_bind]
  exact ⟨_, rfl, rfl, rfl⟩

theorem parseArgs_of_list {args : List Expr} {o : Nat} (hts : startsWith .rightParen ts = false)
    (h : Gives (parseList ts) args (⟨.symbol .rightParen, o⟩ :: rest)) :
    Gives (parseArgs ts) args rest := by
  obtain ⟨_, hread⟩ := h.eq_ok
  obtain ⟨_, hclose⟩ := expectSymbol_cons .rightParen o rest
  rw [parseArgs.eq_def]
  split
  · rw [startsWith_symbol] at hts
    cases hts
  · rw [hread, ok_bind]
    dsimp only
    rw [hclose, ok_bind]
    exact ⟨_, rfl, rfl, rfl⟩

theorem parsePrimary_word {word : String} {e : Expr} {o : Nat}
    (h : GivesMore (parseWord word ts) e rest) :
    Gives (parsePrimary (⟨.word word, o⟩ :: ts)) e rest := by
  obtain ⟨_, hword⟩ := h.eq_ok
  rw [parsePrimary, hword, ok_bind]
  exact ⟨_, rfl, rfl, rfl⟩

theorem parsePrimary_parens {e : Expr} {o o' : Nat}
    (h : Gives (parseLevel .comparison ts) e (⟨.symbol .rightParen, o'⟩ :: rest)) :
    Gives (parsePrimary (⟨.symbol .leftParen, o⟩ :: ts)) e rest := by
  obtain ⟨_, hread⟩ := h.eq_ok
  obtain ⟨_, hclose⟩ := expectSymbol_cons .rightParen o' rest
  rw [parsePrimary, hread, ok_bind]
  dsimp only
  rw [hclose, ok_bind]
  exact ⟨_, rfl, rfl, rfl⟩

theorem parsePower_base {e : Expr} (h : Gives (parseSigned ts) e rest) (hrest : Stops 4 rest) :
    Gives (parsePower ts) e rest := by
  obtain ⟨_, hbase⟩ := h.eq_ok
  rw [parsePower, hbase, ok_bind]
  dsimp only
  rw [hrest.startsWith_eq_false (s := .caret) (by decide)]
  exact ⟨_, rfl, rfl, rfl⟩

theorem parsePower_raise {a b : Expr} {o : Nat}
    (hbase : Gives (parseSigned ts) a (⟨.symbol .caret, o⟩ :: used))
    (hexponent : Gives (parsePower used) b rest) :
    Gives (parsePower ts) (.binary (.arithmetic .power) a b) rest := by
  obtain ⟨_, hbase⟩ := hbase.eq_ok
  obtain ⟨_, hexponent⟩ := hexponent.eq_ok
  rw [parsePower, hbase, ok_bind]
  dsimp only
  rw [if_pos (startsWith_symbol _ _ _)]
  simp only [List.tail_cons, hexponent, ok_bind]
  exact ⟨_, rfl, rfl, rfl⟩

theorem parseList_more {e : Expr} {more : List Expr} {o : Nat}
    (hfirst : Gives (parseLevel .comparison ts) e (⟨.symbol .comma, o⟩ :: used))
    (hmore : Gives (parseList used) more rest) : Gives (parseList ts) (e :: more) rest := by
  obtain ⟨_, hfirst⟩ := hfirst.eq_ok
  obtain ⟨_, hmore⟩ := hmore.eq_ok
  rw [parseList, hfirst, ok_bind]
  dsimp only
  rw [if_pos (startsWith_symbol _ _ _)]
  simp only [List.tail_cons, hmore, ok_bind]
  exact ⟨_, rfl, rfl, rfl⟩

/-! ## Arms -/

section

variable {a b : Expr} {valueTs : List Lexeme} {t' : Lexeme}
  (hcondition : Gives (parseLevel .comparison ts) a (t :: valueTs))
  (hthen : isKeyword .thenWord t.token = true)
  (hvalue : Gives (parseLevel .comparison valueTs) b (t' :: used))

include hcondition hthen hvalue

theorem parseArms_last (hend : isKeyword .endWord t'.token = true) :
    Gives (parseArms ts) [a, b] used := by
  obtain ⟨_, hcondition⟩ := hcondition.eq_ok
  obtain ⟨_, hthen⟩ := expectKeyword_cons hthen valueTs
  obtain ⟨_, hvalue⟩ := hvalue.eq_ok
  obtain ⟨_, hread⟩ := expectKeyword_cons hend used
  rw [parseArms]
  simp only [hcondition, hthen, hvalue, ok_bind]
  rw [if_neg (startsWithKeyword_ne hend (by decide)),
    if_neg (startsWithKeyword_ne hend (by decide)), hread, ok_bind]
  exact ⟨_, rfl, rfl, rfl⟩

theorem parseArms_else {c : Expr} {endToken : Lexeme}
    (helse : isKeyword .elseWord t'.token = true)
    (hotherwise : Gives (parseLevel .comparison used) c (endToken :: rest))
    (hend : isKeyword .endWord endToken.token = true) :
    Gives (parseArms ts) [a, b, c] rest := by
  obtain ⟨_, hcondition⟩ := hcondition.eq_ok
  obtain ⟨_, hthen⟩ := expectKeyword_cons hthen valueTs
  obtain ⟨_, hvalue⟩ := hvalue.eq_ok
  obtain ⟨_, hotherwise⟩ := hotherwise.eq_ok
  obtain ⟨_, hread⟩ := expectKeyword_cons hend rest
  rw [parseArms]
  simp only [hcondition, hthen, hvalue, ok_bind]
  rw [if_neg (startsWithKeyword_ne helse (by decide)), if_pos (startsWithKeyword_cons helse)]
  simp only [List.tail_cons, hotherwise, hread, ok_bind]
  exact ⟨_, rfl, rfl, rfl⟩

theorem parseArms_more {more : List Expr} (hwhen : isKeyword .whenWord t'.token = true)
    (hmore : Gives (parseArms used) more rest) :
    Gives (parseArms ts) (a :: b :: more) rest := by
  obtain ⟨_, hcondition⟩ := hcondition.eq_ok
  obtain ⟨_, hthen⟩ := expectKeyword_cons hthen valueTs
  obtain ⟨_, hvalue⟩ := hvalue.eq_ok
  obtain ⟨_, hmore⟩ := hmore.eq_ok
  rw [parseArms]
  simp only [hcondition, hthen, hvalue, ok_bind]
  rw [if_pos (startsWithKeyword_cons hwhen)]
  simp only [List.tail_cons, hmore, ok_bind]
  exact ⟨_, rfl, rfl, rfl⟩

end

end

/-! ## The rules of the grammar

What a rule puts together is read if its parts are. Each rule is one lemma; the tokens of the parts
are found among those of the whole first. -/

theorem exists_of_map_token {used : List Lexeme} {before after : List Token} {t : Token}
    (h : used.map Lexeme.token = before ++ t :: after) :
    ∃ left o right, used = left ++ ⟨t, o⟩ :: right ∧ left.map Lexeme.token = before ∧
      right.map Lexeme.token = after := by
  obtain ⟨left, _, rfl, hleft, hrest⟩ := List.map_eq_append_iff.mp h
  obtain ⟨⟨_, o⟩, right, rfl, rfl, hright⟩ := List.map_eq_cons_iff.mp hrest
  exact ⟨left, o, right, rfl, hleft, hright⟩

namespace Phrase.Accepts

section Operators

variable {l : Level} {tokens : List Token} {e : Expr}

theorem single (h : (operand l).Accepts tokens e) : (level l).Accepts tokens e := by
  intro used hused rest after e hstops hchain
  obtain ⟨_, hoperand⟩ := (h used hused after hstops).eq_ok
  obtain ⟨_, hchain⟩ := hchain.eq_ok
  rw [parseLevel, hoperand, ok_bind]
  dsimp only
  rw [hchain]
  exact ⟨_, rfl, rfl, rfl⟩

theorem chain {first second : List Token} {s : Symbol} {op : BinaryOp} {a b : Expr}
    (hfirst : (level l).Accepts first a) (hop : l.op? s = some op)
    (hsecond : (operand l).Accepts second b) :
    (level l).Accepts (first ++ .symbol s :: second) (.binary op a b) := by
  intro used hused rest after e hstops hchain
  obtain ⟨left, o, right, rfl, hleft, hright⟩ := exists_of_map_token hused
  rw [List.append_assoc, List.cons_append]
  have hoperand := hsecond right hright after hstops
  refine hfirst left hleft rest _ e (.symbol ?_) (parseChain_cons hop hoperand hchain)
  exact Nat.lt_succ_of_le (Nat.le_of_eq (Level.strength_of_op? hop))

theorem next {l' : Level} (hread : ∀ ts, parseOperand l ts = parseLevel l' ts)
    (hstrength : l'.strength = l.strength + 1) (h : (level l').Accepts tokens e) :
    (operand l).Accepts tokens e := by
  intro used hused rest hstops
  rw [← hstrength] at hstops
  rw [hread]
  exact h used hused rest rest e (hstops.mono (Nat.le_succ _)) (parseChain_of_stops hstops)

theorem power (h : Phrase.power.Accepts tokens e) : (operand .product).Accepts tokens e := by
  intro used hused rest hstops
  rw [parseOperand.eq_def]
  exact h used hused rest hstops

theorem base (h : signed.Accepts tokens e) : Phrase.power.Accepts tokens e :=
  fun used hused rest hstops ↦
    parsePower_base (h used hused rest (hstops.mono (by decide))) hstops

theorem raise {first second : List Token} {a b : Expr} (hfirst : signed.Accepts first a)
    (hsecond : Phrase.power.Accepts second b) :
    Phrase.power.Accepts (first ++ .symbol .caret :: second)
      (.binary (.arithmetic .power) a b) := by
  intro used hused rest hstops
  obtain ⟨base, o, exponent, rfl, hbase, hexponent⟩ := exists_of_map_token hused
  rw [List.append_assoc, List.cons_append]
  exact parsePower_raise (hfirst base hbase _ (.symbol (by decide)))
    (hsecond exponent hexponent rest hstops)

theorem unsigned (h : primary.Accepts tokens e) : signed.Accepts tokens e :=
  fun used hused rest hstops ↦ parseSigned_of_primary (h used hused rest hstops)

theorem sign {s : Symbol} {f : Expr → Expr} (h : signed.Accepts tokens e)
    (hread : ∀ {ts rest : List Lexeme} {o : Nat}, Gives (parseSigned ts) e rest →
      Gives (parseSigned (⟨.symbol s, o⟩ :: ts)) (f e) rest) :
    signed.Accepts (.symbol s :: tokens) (f e) := by
  intro used hused rest hstops
  obtain ⟨⟨_, o⟩, used, rfl, rfl, htokens⟩ := List.map_eq_cons_iff.mp hused
  exact hread (h used htokens rest hstops)

end Operators

section Primaries

variable {tokens : List Token} {args : List Expr}

theorem number {text : String} {value : Decimal} (hvalue : Decimal.ofNumeral? text = some value) :
    primary.Accepts [.number text] (.number value) := by
  intro used hused rest hstops
  simp only [List.map_eq_cons_iff, List.map_eq_nil_iff] at hused
  obtain ⟨⟨_, o⟩, _, rfl, rfl, rfl⟩ := hused
  rw [List.cons_append, parsePrimary, hvalue]
  exact ⟨_, rfl, rfl, rfl⟩

theorem parens {e : Expr} (h : Phrase.expr.Accepts tokens e) :
    primary.Accepts (.symbol .leftParen :: (tokens ++ [.symbol .rightParen])) e := by
  intro used hused rest hstops
  obtain ⟨⟨_, o⟩, _, rfl, rfl, hinside⟩ := List.map_eq_cons_iff.mp hused
  obtain ⟨inner, o', _, rfl, hinner, hend⟩ := exists_of_map_token hinside
  obtain rfl := List.map_eq_nil_iff.mp hend
  rw [List.cons_append, List.append_assoc, List.cons_append, List.nil_append]
  exact parsePrimary_parens (h.expr hinner _ (.symbol (by decide)))

theorem subFormula {name : String} (hname : isLoopName name = false) :
    primary.Accepts [.dollar name] (.subFormula name) := by
  intro used hused rest hstops
  simp only [List.map_eq_cons_iff, List.map_eq_nil_iff] at hused
  obtain ⟨⟨_, o⟩, _, rfl, rfl, rfl⟩ := hused
  rw [List.cons_append, parsePrimary, if_neg (by rw [hname]; exact Bool.false_ne_true)]
  exact ⟨_, rfl, rfl, rfl⟩

theorem constant {name : String} (hname : isConstantName name = true)
    (hnot : ∀ k : Keyword, name ≠ k.text) : primary.Accepts [.word name] (.constant name) := by
  intro used hused rest hstops
  simp only [List.map_eq_cons_iff, List.map_eq_nil_iff] at hused
  obtain ⟨⟨_, o⟩, _, rfl, rfl, rfl⟩ := hused
  exact parsePrimary_word (parseWord_constant hname hnot hstops)

theorem call {word : String} {f : Function} (hf : Function.ofName? word = some f)
    (hnot : f ≠ .caseWhen) (h : Phrase.args.Accepts tokens args)
    (harity : f.arity.admits args.length = true) :
    primary.Accepts (.word word :: .symbol .leftParen :: (tokens ++ [.symbol .rightParen]))
      (.call f.name args) := by
  intro used hused rest hstops
  obtain ⟨⟨_, o⟩, _, rfl, rfl, hopen⟩ := List.map_eq_cons_iff.mp hused
  obtain ⟨⟨_, o₁⟩, _, rfl, rfl, hinside⟩ := List.map_eq_cons_iff.mp hopen
  obtain ⟨inner, o', _, rfl, hinner, hend⟩ := exists_of_map_token hinside
  obtain rfl := List.map_eq_nil_iff.mp hend
  rw [List.cons_append, List.cons_append, List.append_assoc, List.cons_append, List.nil_append]
  exact parsePrimary_word (parseWord_call hf hnot harity (h inner hinner o' rest))

theorem caseWhen {caseToken whenToken : Token} (hcase : isKeyword .caseWord caseToken = true)
    (hwhen : isKeyword .whenWord whenToken = true) (h : arms.Accepts tokens args) :
    primary.Accepts (caseToken :: whenToken :: tokens) (.call Function.caseWhen.name args) := by
  intro used hused rest hstops
  obtain ⟨word, rfl, hword⟩ := isKeyword_eq_true hcase
  simp only [List.map_eq_cons_iff] at hused
  obtain ⟨⟨_, o⟩, _, rfl, rfl, t, arms, rfl, rfl, harms⟩ := hused
  exact parsePrimary_word (parseWord_caseWhen hword hwhen (h arms harms rest))

theorem reference {word name : String} {t : Token} {filters : List DimFilter}
    (hword : word.toUpper = "REF") (hname : referenceNameOf? t = some name)
    (hfilters : DerivesMoreFilters tokens filters) :
    primary.Accepts (.word word :: .symbol .leftParen :: t :: (tokens ++ [.symbol .rightParen]))
      (.reference ⟨name, filters⟩) := by
  intro used hused rest hstops
  obtain ⟨⟨_, o⟩, _, rfl, rfl, hopen⟩ := List.map_eq_cons_iff.mp hused
  obtain ⟨⟨_, o₁⟩, _, rfl, rfl, hinside⟩ := List.map_eq_cons_iff.mp hopen
  obtain ⟨t, _, rfl, rfl, hafter⟩ := List.map_eq_cons_iff.mp hinside
  obtain ⟨inner, o', _, rfl, rfl, hend⟩ := exists_of_map_token hafter
  obtain rfl := List.map_eq_nil_iff.mp hend
  rw [List.cons_append, List.cons_append, List.cons_append, List.append_assoc, List.cons_append,
    List.nil_append]
  exact parsePrimary_word (parseWord_reference hword (parseReference_append hname hfilters o' rest))

theorem cell {ref : CellRef} (href : DerivesRef tokens ref) :
    primary.Accepts tokens (.cell ref) := by
  rintro used rfl rest hstops
  exact parsePrimary_cell href rest

theorem aggregate {word : String} {kind : Aggregate} {ref : CellRef}
    (hkind : Aggregate.ofName? word = some kind) (hsummand : DerivesSummand tokens ref) :
    primary.Accepts (.word word :: .symbol .colon :: tokens)
      (.cell { ref with aggregate := some kind }) := by
  intro used hused rest hstops
  simp only [List.map_eq_cons_iff] at hused
  obtain ⟨⟨_, o⟩, _, rfl, rfl, ⟨_, o₁⟩, used, rfl, rfl, rfl⟩ := hused
  exact parsePrimary_word (parseWord_aggregate hkind (parseAggregate_append _ hsummand rest))

end Primaries

section Arguments

variable {tokens : List Token} {args : List Expr}

theorem noArgs : Phrase.args.Accepts [] [] := by
  intro used hused o rest
  obtain rfl := List.map_eq_nil_iff.mp hused
  rw [List.nil_append, parseArgs]
  exact ⟨_, rfl, rfl, rfl⟩

theorem someArgs (hlist : Derives .list tokens args) (h : list.Accepts tokens args) :
    Phrase.args.Accepts tokens args := by
  intro used hused o rest
  refine parseArgs_of_list ?_ (h used hused o rest)
  obtain ⟨t, more, rfl, ht⟩ := hlist.exists_cons (by simp)
  obtain ⟨first, used, rfl, rfl, rfl⟩ := List.map_eq_cons_iff.mp hused
  exact beq_eq_false_iff_ne.mpr ht

theorem one {e : Expr} (h : Phrase.expr.Accepts tokens e) : list.Accepts tokens [e] := by
  intro used hused o rest
  have hstops : Stops 1 (⟨.symbol .rightParen, o⟩ :: rest) := .symbol (by decide)
  obtain ⟨_, hread⟩ := (h.expr hused _ hstops).eq_ok
  rw [parseList, hread, ok_bind]
  exact ⟨_, rfl, rfl, rfl⟩

theorem more {first : List Token} {e : Expr} (hfirst : Phrase.expr.Accepts first e)
    (hmore : list.Accepts tokens args) :
    list.Accepts (first ++ .symbol .comma :: tokens) (e :: args) := by
  intro used hused o rest
  obtain ⟨head, o', tail, rfl, hhead, htail⟩ := exists_of_map_token hused
  rw [List.append_assoc, List.cons_append]
  exact parseList_more (hfirst.expr hhead _ (.symbol (by decide))) (hmore tail htail o rest)

end Arguments

section Arms

variable {condition value tokens : List Token} {thenToken t : Token} {a b : Expr}
  (hcondition : Phrase.expr.Accepts condition a) (hthen : isKeyword .thenWord thenToken = true)
  (hvalue : Phrase.expr.Accepts value b)

include hcondition hthen hvalue

theorem lastArm (hend : isKeyword .endWord t = true) :
    arms.Accepts (condition ++ thenToken :: (value ++ [t])) [a, b] := by
  intro used hused rest
  obtain ⟨left, o, _, rfl, hleft, hused⟩ := exists_of_map_token hused
  obtain ⟨right, o', _, rfl, hright, hused⟩ := exists_of_map_token hused
  obtain rfl := List.map_eq_nil_iff.mp hused
  rw [List.append_assoc, List.cons_append, List.append_assoc, List.cons_append, List.nil_append]
  exact parseArms_last (hcondition.expr hleft _ (.keyword hthen)) hthen
    (hvalue.expr hright _ (.keyword hend)) hend

theorem elseArm {endToken : Token} {c : Expr} (helse : isKeyword .elseWord t = true)
    (hotherwise : Phrase.expr.Accepts tokens c) (hend : isKeyword .endWord endToken = true) :
    arms.Accepts (condition ++ thenToken :: (value ++ t :: (tokens ++ [endToken]))) [a, b, c] := by
  intro used hused rest
  obtain ⟨left, o, _, rfl, hleft, hused⟩ := exists_of_map_token hused
  obtain ⟨right, o₁, _, rfl, hright, hused⟩ := exists_of_map_token hused
  obtain ⟨last, o', _, rfl, hlast, hused⟩ := exists_of_map_token hused
  obtain rfl := List.map_eq_nil_iff.mp hused
  rw [List.append_assoc, List.cons_append, List.append_assoc, List.cons_append, List.append_assoc,
    List.cons_append, List.nil_append]
  exact parseArms_else (hcondition.expr hleft _ (.keyword hthen)) hthen
    (hvalue.expr hright _ (.keyword helse)) helse (hotherwise.expr hlast _ (.keyword hend)) hend

theorem moreArms {args : List Expr} (hwhen : isKeyword .whenWord t = true)
    (hmore : arms.Accepts tokens args) :
    arms.Accepts (condition ++ thenToken :: (value ++ t :: tokens)) (a :: b :: args) := by
  intro used hused rest
  obtain ⟨left, o, _, rfl, hleft, hused⟩ := exists_of_map_token hused
  obtain ⟨right, o', others, rfl, hright, hothers⟩ := exists_of_map_token hused
  rw [List.append_assoc, List.cons_append, List.append_assoc, List.cons_append]
  exact parseArms_more (hcondition.expr hleft _ (.keyword hthen)) hthen
    (hvalue.expr hright _ (.keyword hwhen)) hwhen (hmore others hothers rest)

end Arms

end Phrase.Accepts

/-- **Completeness of reading**: the reader of a phrase takes up its tokens. The induction is on the
derivation, so there is one case for each rule of the grammar. -/
theorem Derives.accepts {p : Phrase} {tokens : List Token} {m : p.Meaning}
    (h : Derives p tokens m) : p.Accepts tokens m := by
  induction h with
  | single _ ih => exact ih.single
  | chain _ hop _ ihfirst ihsecond => exact ihfirst.chain hop ihsecond
  | sum _ ih => exact ih.next (fun ts ↦ by rw [parseOperand]) rfl
  | product _ ih => exact ih.next (fun ts ↦ by rw [parseOperand]) rfl
  | power _ ih => exact ih.power
  | base _ ih => exact ih.base
  | raise _ _ ihfirst ihsecond => exact ihfirst.raise ihsecond
  | unsigned _ ih => exact ih.unsigned
  | negate _ ih => exact ih.sign parseSigned_minus
  | plus _ ih => exact ih.sign (f := id) parseSigned_plus
  | number hvalue => exact .number hvalue
  | parens _ ih => exact ih.parens
  | subFormula hname => exact .subFormula hname
  | constant hname hnot => exact .constant hname hnot
  | call hf hnot _ harity ih => exact .call hf hnot ih harity
  | caseWhen hcase hwhen _ ih => exact .caseWhen hcase hwhen ih
  | reference hword hname hfilters => exact .reference hword hname hfilters
  | cell href => exact .cell href
  | aggregate hkind hsummand => exact .aggregate hkind hsummand
  | noArgs => exact .noArgs
  | someArgs hlist ih => exact .someArgs hlist ih
  | one _ ih => exact ih.one
  | more _ _ ihfirst ihmore => exact ihfirst.more ihmore
  | lastArm _ hthen _ hend ihcondition ihvalue => exact ihcondition.lastArm hthen ihvalue hend
  | elseArm _ hthen _ helse _ hend ihcondition ihvalue ihotherwise =>
    exact ihcondition.elseArm hthen ihvalue helse ihotherwise hend
  | moreArms _ hthen _ hwhen _ ihcondition ihvalue ihmore =>
    exact ihcondition.moreArms hthen ihvalue hwhen ihmore

/-! ## Whole texts -/

theorem expectEnd_eq_ok {ts : List Lexeme} {u : Unit} (h : expectEnd ts = .ok u) : ts = [] := by
  unfold expectEnd at h
  split at h
  · rfl
  · exact absurd h failAt_ne_ok
  · exact absurd h unexpectedAt_ne_ok

theorem parseExpr_eq_ok_iff {ts : List Lexeme} {e : Expr} :
    parseExpr ts = .ok e ↔ Derives .expr (ts.map Lexeme.token) e := by
  constructor
  · intro hp
    obtain ⟨⟨e, rest, h⟩, hread, hp⟩ := bind_eq_ok.mp hp
    obtain ⟨_, hend, hp⟩ := bind_eq_ok.mp hp
    cases hp
    obtain ⟨used, rfl, hused⟩ := parseLevel_sound hread
    obtain rfl := expectEnd_eq_ok hend
    rw [List.append_nil]
    exact hused
  · intro hderives
    have hgives := hderives.accepts.expr rfl [] Stops.nil
    rw [List.append_nil] at hgives
    obtain ⟨_, hread⟩ := hgives.eq_ok
    rw [parseExpr, hread, ok_bind]
    rfl

theorem parseStatement_eq_ok_iff {ts : List Lexeme} {s : Statement} :
    parseStatement ts = .ok s ↔ DerivesStatement (ts.map Lexeme.token) s := by
  constructor
  · intro hp
    unfold parseStatement at hp
    split at hp
    · obtain ⟨⟨target, rest, h⟩, htarget, hp⟩ := bind_eq_ok.mp hp
      dsimp only at hp
      split at hp
      · rename_i hequal
        obtain ⟨o, more, rfl⟩ := startsWith_eq_true hequal
        obtain ⟨e, he, hp⟩ := bind_eq_ok.mp hp
        cases hp
        obtain ⟨used, rfl, hused⟩ := parseCellRef_eq_ok htarget
        rw [List.map_append]
        exact .mk hused (parseExpr_eq_ok_iff.mp he)
      · exact absurd hp failAt_ne_ok
    · exact absurd hp failAt_ne_ok
  · intro hderives
    generalize htokens : ts.map Lexeme.token = tokens at hderives
    obtain ⟨htarget, he⟩ := hderives
    obtain ⟨target, o, more, rfl, rfl, rfl⟩ := exists_of_map_token htokens
    have hopen : startsWith .leftBracket (target ++ ⟨.symbol .equal, o⟩ :: more) = true := by
      obtain ⟨inside, hinside⟩ := htarget.exists_cons
      obtain ⟨⟨_, o'⟩, _, rfl, rfl, -⟩ := List.map_eq_cons_iff.mp hinside
      exact startsWith_symbol _ _ _
    obtain ⟨_, hread⟩ := (parseCellRef_append htarget (⟨.symbol .equal, o⟩ :: more)).eq_ok
    rw [parseStatement, if_pos hopen, hread, ok_bind]
    dsimp only
    rw [if_pos (startsWith_symbol _ _ _), List.tail_cons, parseExpr_eq_ok_iff.mpr he]
    rfl

/-- The tokens of a text without the blanks at its ends. -/
def tokensOf (text : String) : List Token := (lexemesOf text).1.map Lexeme.token

theorem readWith_eq_ok_iff {α : Type} {read : List Lexeme → Except ParseError α}
    {subFormula : Option String} {text : String} {a : α} :
    readWith read subFormula text = .ok a ↔ read (lexemesOf text).1 = .ok a := by
  rw [readWith]
  dsimp only
  cases hread : read (lexemesOf text).1 with
  | ok a' => simp only [Except.ok.injEq]
  | error err => exact ⟨nofun, nofun⟩

theorem Expr.ofText_eq_ok_iff {text : String} {e : Expr} :
    ofText text = .ok e ↔ Derives .expr (tokensOf text) e :=
  readWith_eq_ok_iff.trans parseExpr_eq_ok_iff

theorem Statement.ofText_eq_ok_iff {text : String} {s : Statement} :
    ofText text = .ok s ↔ DerivesStatement (tokensOf text) s :=
  readWith_eq_ok_iff.trans parseStatement_eq_ok_iff

/-- **Formulas are read exactly.** The readers of expressions and of formulas accept the sequences
of tokens that the grammar spells and no others, and they build what the grammar assigns; so a text
is read as what its tokens spell. -/
theorem reading_exact :
    (∀ ts e, parseExpr ts = .ok e ↔ Derives .expr (ts.map Lexeme.token) e) ∧
      (∀ ts s, parseStatement ts = .ok s ↔ DerivesStatement (ts.map Lexeme.token) s) ∧
      (∀ text e, Expr.ofText text = .ok e ↔ Derives .expr (tokensOf text) e) ∧
      ∀ text s, Statement.ofText text = .ok s ↔ DerivesStatement (tokensOf text) s :=
  ⟨fun _ _ ↦ parseExpr_eq_ok_iff, fun _ _ ↦ parseStatement_eq_ok_iff,
    fun _ _ ↦ Expr.ofText_eq_ok_iff, fun _ _ ↦ Statement.ofText_eq_ok_iff⟩

/-- The sign of the base binds tighter than the power, and powers group from the right. -/
example : Expr.ofText "-A ^ B ^ 2" = .ok
    (.binary (.arithmetic .power) (.negate (.constant "A"))
      (.binary (.arithmetic .power) (.constant "B")
        (.number ⟨false, 2, 0, by decide, by decide⟩))) := by decide +kernel

end PlanLedger.Formula
