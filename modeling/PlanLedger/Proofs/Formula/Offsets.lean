import PlanLedger.Proofs.Formula.Completeness
import PlanLedger.Proofs.Formula.Positions

/-!
# Where faults are reported

Readers go through the tokens from the front: what a reader leaves is the end of what it was given,
and where it fails, it fails at the beginning of such an end. So a fault is reported at the byte of
a token or at the end of the text, and nowhere else. The proofs call each other as the readers do,
and they end for the same reason: on the way around the readers at least one token is taken up.
-/

namespace PlanLedger.Formula

/-! ## Results within the tokens -/

/-- A reader stays within some tokens: what it leaves is the end of them, and so are the tokens at
which it fails. -/
def StaysIn {α : Type} (left : α → List Lexeme) (ts : List Lexeme) : Except ParseError α → Prop
  | .ok a => left a <:+ ts
  | .error (.fault offset _) => ∃ rest, rest <:+ ts ∧ offset = offsetOf rest
  | .error (.arity _) => True

namespace StaysIn

variable {α β : Type} {left : α → List Lexeme} {left' : β → List Lexeme} {ts ts' : List Lexeme}

theorem mono {result : Except ParseError α} (h : StaysIn left ts result) (hts : ts <:+ ts') :
    StaysIn left ts' result := by
  match result with
  | .ok a => exact List.IsSuffix.trans h hts
  | .error (.fault offset fault) =>
    obtain ⟨rest, hrest, hoffset⟩ := h
    exact ⟨rest, hrest.trans hts, hoffset⟩
  | .error (.arity fault) => trivial

theorem bind {result : Except ParseError α} {f : α → Except ParseError β}
    (h : StaysIn left ts result) (hf : ∀ a, StaysIn left' (left a) (f a)) :
    StaysIn left' ts (result >>= f) := by
  match result with
  | .ok a => exact (hf a).mono h
  | .error (.fault offset fault) => exact h
  | .error (.arity fault) => trivial

theorem failAt {fault : SyntaxFault} : StaysIn left ts (failAt ts fault) :=
  ⟨ts, List.suffix_refl ts, rfl⟩

theorem unexpectedAt {place : Place} : StaysIn left ts (unexpectedAt ts place) := by
  unfold Formula.unexpectedAt
  split <;> exact failAt

end StaysIn

/-! ## References -/

section

variable {ts : List Lexeme}

theorem staysIn_expectSymbol (s : Symbol) (ts : List Lexeme) :
    StaysIn Parsed.rest ts (expectSymbol s ts) := by
  unfold expectSymbol
  split
  · split_ifs
    · exact List.suffix_cons _ _
    · exact .unexpectedAt
  · exact .unexpectedAt

theorem staysIn_expectKeyword (k : Keyword) (ts : List Lexeme) :
    StaysIn Parsed.rest ts (expectKeyword k ts) := by
  unfold expectKeyword
  split
  · split_ifs
    · exact List.suffix_cons _ _
    · exact .unexpectedAt
  · exact .unexpectedAt

theorem staysIn_parseDimValue (ts : List Lexeme) : StaysIn Parsed.rest ts (parseDimValue ts) := by
  unfold parseDimValue
  split
  · split
    · exact List.suffix_cons _ _
    · split_ifs
      · exact List.suffix_cons _ _
      · exact .failAt
    · exact .unexpectedAt
  · exact .unexpectedAt

theorem staysIn_parseDimFilter (ts : List Lexeme) : StaysIn Parsed.rest ts (parseDimFilter ts) := by
  unfold parseDimFilter
  split
  · rename_i name o rest
    refine StaysIn.mono ?_ (List.suffix_cons _ rest)
    refine (staysIn_expectSymbol .equal rest).bind fun ⟨_, rest₁, h₁⟩ ↦ ?_
    refine (staysIn_parseDimValue rest₁).bind fun ⟨value, rest₂, h₂⟩ ↦ ?_
    exact List.suffix_refl rest₂
  · exact .unexpectedAt

theorem staysIn_parseMoreFilters (ts : List Lexeme) :
    StaysIn ParsedMore.rest ts (parseMoreFilters ts) := by
  fun_induction parseMoreFilters ts with
  | case1 o rest ih =>
    refine StaysIn.mono ?_ (List.suffix_cons _ rest)
    refine (staysIn_parseDimFilter rest).bind fun first ↦ ?_
    exact (ih first.rest first.shorter).bind fun more ↦ List.suffix_refl more.rest
  | case2 ts => exact List.suffix_refl ts

theorem staysIn_parseKeyFigureCode (ts : List Lexeme) :
    StaysIn Parsed.rest ts (parseKeyFigureCode ts) := by
  unfold parseKeyFigureCode
  split
  · rename_i t rest
    refine StaysIn.mono ?_ (List.suffix_cons t rest)
    split
    · exact List.suffix_refl rest
    · exact .failAt
    · exact .failAt
  · exact .failAt

theorem staysIn_parseKeyFigure (filters : List DimFilter) (ts : List Lexeme) :
    StaysIn Parsed.rest ts (parseKeyFigure filters ts) := by
  unfold parseKeyFigure
  extract_lets optional afterMark hlength
  have hmark : afterMark <:+ ts := by
    unfold afterMark
    split_ifs
    · exact List.tail_suffix ts
    · exact List.suffix_refl ts
  refine StaysIn.mono ?_ hmark
  split
  · refine StaysIn.mono ?_ (List.tail_suffix afterMark)
    refine (staysIn_expectSymbol .leftBracket afterMark.tail).bind fun ⟨_, rest₁, h₁⟩ ↦ ?_
    refine (staysIn_parseKeyFigureCode rest₁).bind fun ⟨code, rest₂, h₂⟩ ↦ ?_
    refine (staysIn_expectSymbol .rightBracket rest₂).bind fun ⟨_, rest₃, h₃⟩ ↦ ?_
    exact List.suffix_refl rest₃
  · exact .unexpectedAt

theorem staysIn_parseBare (code : String) (ts : List Lexeme) :
    StaysIn Parsed.rest ts (parseBare code ts) :=
  (staysIn_expectSymbol .rightBracket ts).bind fun ⟨_, rest, _⟩ ↦ List.suffix_refl rest

theorem staysIn_parseFilters (name : String) (ts : List Lexeme) :
    StaysIn Parsed.rest ts (parseFilters name ts) := by
  unfold parseFilters
  refine (staysIn_parseDimValue ts).bind fun ⟨value, rest₁, h₁⟩ ↦ ?_
  refine (staysIn_parseMoreFilters rest₁).bind fun ⟨filters, rest₂, h₂⟩ ↦ ?_
  refine (staysIn_expectSymbol .rightBracket rest₂).bind fun ⟨_, rest₃, h₃⟩ ↦ ?_
  exact (staysIn_parseKeyFigure _ rest₃).bind fun ⟨ref, rest₄, h₄⟩ ↦ List.suffix_refl rest₄

theorem staysIn_parseInBrackets (ts : List Lexeme) :
    StaysIn Parsed.rest ts (parseInBrackets ts) := by
  unfold parseInBrackets
  split
  · rename_i o rest
    refine StaysIn.mono ?_ (List.suffix_cons _ rest)
    exact (staysIn_parseKeyFigure [] rest).bind fun ⟨ref, rest₁, h₁⟩ ↦ List.suffix_refl rest₁
  · exact (List.suffix_cons _ _).trans (List.suffix_cons _ _)
  · rename_i name o o' rest
    refine StaysIn.mono ?_ ((List.suffix_cons _ rest).trans (List.suffix_cons _ _))
    exact (staysIn_parseFilters name rest).bind fun ⟨ref, rest₁, h₁⟩ ↦ List.suffix_refl rest₁
  · exact StaysIn.mono .unexpectedAt (List.suffix_cons _ _)
  · rename_i code o rest
    refine StaysIn.mono ?_ (List.suffix_cons _ rest)
    exact (staysIn_parseBare code rest).bind fun ⟨ref, rest₁, h₁⟩ ↦ List.suffix_refl rest₁
  · rename_i code o rest
    refine StaysIn.mono ?_ (List.suffix_cons _ rest)
    exact (staysIn_parseBare code rest).bind fun ⟨ref, rest₁, h₁⟩ ↦ List.suffix_refl rest₁
  · exact .unexpectedAt

theorem staysIn_parseCellRef (ts : List Lexeme) : StaysIn Parsed.rest ts (parseCellRef ts) := by
  unfold parseCellRef
  refine (staysIn_expectSymbol .leftBracket ts).bind fun ⟨_, rest₁, h₁⟩ ↦ ?_
  exact (staysIn_parseInBrackets rest₁).bind fun ⟨ref, rest₂, h₂⟩ ↦ List.suffix_refl rest₂

theorem staysIn_parseAggregate (kind : Aggregate) (ts : List Lexeme) :
    StaysIn Parsed.rest ts (parseAggregate kind ts) := by
  unfold parseAggregate
  split
  · exact (staysIn_parseCellRef _).bind fun ⟨ref, rest, h⟩ ↦ List.suffix_refl rest
  · exact List.suffix_cons _ _
  · exact List.suffix_cons _ _
  · exact .unexpectedAt

theorem staysIn_parseReference (ts : List Lexeme) : StaysIn Parsed.rest ts (parseReference ts) := by
  unfold parseReference
  split
  · rename_i t rest
    split
    · refine StaysIn.mono ?_ (List.suffix_cons t rest)
      refine (staysIn_parseMoreFilters rest).bind fun ⟨filters, rest₁, h₁⟩ ↦ ?_
      exact (staysIn_expectSymbol .rightParen rest₁).bind fun ⟨_, rest₂, h₂⟩ ↦
        List.suffix_refl rest₂
    · exact .unexpectedAt
  · exact .unexpectedAt

theorem staysIn_parseConstant (word : String) (ts : List Lexeme) :
    StaysIn ParsedMore.rest ts (parseConstant word ts) := by
  unfold parseConstant
  split
  · exact .failAt
  · split_ifs
    · exact .failAt
    · exact List.suffix_refl ts
    · exact .failAt

end

/-! ## Expressions -/

mutual

theorem staysIn_parseLevel (level : Level) (ts : List Lexeme) :
    StaysIn Parsed.rest ts (parseLevel level ts) := by
  rw [parseLevel]
  refine (staysIn_parseOperand level ts).bind fun ⟨left, rest₁, h₁⟩ ↦ ?_
  exact (staysIn_parseChain level left rest₁).bind fun ⟨e, rest₂, h₂⟩ ↦ List.suffix_refl rest₂
termination_by 32 * ts.length + 2 * level.height + 1
decreasing_by all_goals have := level.height_le; omega

theorem staysIn_parseOperand (level : Level) (ts : List Lexeme) :
    StaysIn Parsed.rest ts (parseOperand level ts) := by
  rw [parseOperand.eq_def]
  cases level with
  | comparison => exact staysIn_parseLevel .sum ts
  | sum => exact staysIn_parseLevel .product ts
  | product => exact staysIn_parsePower ts
termination_by 32 * ts.length + 2 * level.height
decreasing_by all_goals simp only [*, Level.height]; omega

theorem staysIn_parseChain (level : Level) (left : Expr) (ts : List Lexeme) :
    StaysIn ParsedMore.rest ts (parseChain level left ts) := by
  rw [parseChain]
  split
  · rename_i op hop
    have hlength := Level.length_tail_lt hop
    refine StaysIn.mono ?_ (List.tail_suffix ts)
    refine (staysIn_parseOperand level ts.tail).bind fun ⟨right, rest₁, h₁⟩ ↦ ?_
    exact (staysIn_parseChain level _ rest₁).bind fun ⟨e, rest₂, h₂⟩ ↦ List.suffix_refl rest₂
  · exact List.suffix_refl ts
termination_by 32 * ts.length
decreasing_by all_goals have := level.height_le; omega

theorem staysIn_parsePower (ts : List Lexeme) : StaysIn Parsed.rest ts (parsePower ts) := by
  rw [parsePower]
  refine (staysIn_parseSigned ts).bind fun ⟨base, rest₁, h₁⟩ ↦ ?_
  have hlength : rest₁.tail.length < ts.length := by
    rw [List.length_tail]
    omega
  dsimp only
  split
  · refine StaysIn.mono ?_ (List.tail_suffix rest₁)
    exact (staysIn_parsePower rest₁.tail).bind fun ⟨exponent, rest₂, h₂⟩ ↦ List.suffix_refl rest₂
  · exact List.suffix_refl rest₁
termination_by 32 * ts.length + 10
decreasing_by all_goals omega

theorem staysIn_parseSigned (ts : List Lexeme) : StaysIn Parsed.rest ts (parseSigned ts) := by
  rw [parseSigned.eq_def]
  split
  · rename_i o rest
    refine StaysIn.mono ?_ (List.suffix_cons _ rest)
    exact (staysIn_parseSigned rest).bind fun ⟨e, rest₁, h₁⟩ ↦ List.suffix_refl rest₁
  · rename_i o rest
    refine StaysIn.mono ?_ (List.suffix_cons _ rest)
    exact (staysIn_parseSigned rest).bind fun ⟨e, rest₁, h₁⟩ ↦ List.suffix_refl rest₁
  · exact staysIn_parsePrimary ts
termination_by 32 * ts.length + 8
decreasing_by all_goals simp only [*, List.length_cons]; omega

theorem staysIn_parsePrimary (ts : List Lexeme) : StaysIn Parsed.rest ts (parsePrimary ts) := by
  rw [parsePrimary.eq_def]
  split
  · split
    · exact List.suffix_cons _ _
    · exact .failAt
  · rename_i o rest
    refine StaysIn.mono ?_ (List.suffix_cons _ rest)
    refine (staysIn_parseLevel .comparison rest).bind fun ⟨e, rest₁, h₁⟩ ↦ ?_
    exact (staysIn_expectSymbol .rightParen rest₁).bind fun ⟨_, rest₂, h₂⟩ ↦ List.suffix_refl rest₂
  · exact (staysIn_parseCellRef _).bind fun ⟨ref, rest, h⟩ ↦ List.suffix_refl rest
  · split_ifs
    · exact .failAt
    · exact List.suffix_cons _ _
  · rename_i word o rest
    refine StaysIn.mono ?_ (List.suffix_cons _ rest)
    exact (staysIn_parseWord word rest).bind fun ⟨e, rest₁, h₁⟩ ↦ List.suffix_refl rest₁
  · exact .failAt
  · exact .unexpectedAt
termination_by 32 * ts.length + 6
decreasing_by all_goals simp only [*, List.length_cons, Level.height]; omega

theorem staysIn_parseWord (word : String) (ts : List Lexeme) :
    StaysIn ParsedMore.rest ts (parseWord word ts) := by
  rw [parseWord.eq_def]
  split
  · rename_i kind _ _
    refine StaysIn.mono ?_ (List.tail_suffix ts)
    exact (staysIn_parseAggregate kind ts.tail).bind fun ⟨e, rest, h⟩ ↦ List.suffix_refl rest
  split
  · refine (staysIn_expectKeyword .whenWord ts).bind fun ⟨_, rest₁, h₁⟩ ↦ ?_
    exact (staysIn_parseArms rest₁).bind fun ⟨args, rest₂, h₂⟩ ↦ List.suffix_refl rest₂
  split
  · split
    · refine StaysIn.mono ?_ (List.tail_suffix ts)
      exact (staysIn_parseReference ts.tail).bind fun ⟨e, rest, h⟩ ↦ List.suffix_refl rest
    · split
      · exact .failAt
      · refine (staysIn_expectSymbol .leftParen ts).bind fun ⟨_, rest₁, h₁⟩ ↦ ?_
        refine (staysIn_parseArgs rest₁).bind fun ⟨args, rest₂, h₂⟩ ↦ ?_
        dsimp only
        split
        · exact List.suffix_refl rest₂
        · trivial
  · exact staysIn_parseConstant word ts
termination_by 32 * ts.length + 4
decreasing_by all_goals omega

theorem staysIn_parseArgs (ts : List Lexeme) : StaysIn Parsed.rest ts (parseArgs ts) := by
  rw [parseArgs.eq_def]
  split
  · exact List.suffix_cons _ _
  · refine (staysIn_parseList ts).bind fun ⟨args, rest₁, h₁⟩ ↦ ?_
    exact (staysIn_expectSymbol .rightParen rest₁).bind fun ⟨_, rest₂, h₂⟩ ↦ List.suffix_refl rest₂
termination_by 32 * ts.length + 19
decreasing_by all_goals omega

theorem staysIn_parseList (ts : List Lexeme) : StaysIn Parsed.rest ts (parseList ts) := by
  rw [parseList]
  refine (staysIn_parseLevel .comparison ts).bind fun ⟨e, rest₁, h₁⟩ ↦ ?_
  have hlength : rest₁.tail.length < ts.length := by
    rw [List.length_tail]
    omega
  dsimp only
  split
  · refine StaysIn.mono ?_ (List.tail_suffix rest₁)
    exact (staysIn_parseList rest₁.tail).bind fun ⟨more, rest₂, h₂⟩ ↦ List.suffix_refl rest₂
  · exact List.suffix_refl rest₁
termination_by 32 * ts.length + 18
decreasing_by
  all_goals
    try simp only [Level.height]
    omega

theorem staysIn_parseArms (ts : List Lexeme) : StaysIn Parsed.rest ts (parseArms ts) := by
  rw [parseArms]
  refine (staysIn_parseLevel .comparison ts).bind fun ⟨condition, rest₁, h₁⟩ ↦ ?_
  refine (staysIn_expectKeyword .thenWord rest₁).bind fun ⟨_, rest₂, h₂⟩ ↦ ?_
  refine (staysIn_parseLevel .comparison rest₂).bind fun ⟨value, rest₃, h₃⟩ ↦ ?_
  have hlength : rest₃.tail.length < ts.length := by
    rw [List.length_tail]
    omega
  dsimp only
  split
  · refine StaysIn.mono ?_ (List.tail_suffix rest₃)
    exact (staysIn_parseArms rest₃.tail).bind fun ⟨more, rest₄, h₄⟩ ↦ List.suffix_refl rest₄
  split
  · refine StaysIn.mono ?_ (List.tail_suffix rest₃)
    refine (staysIn_parseLevel .comparison rest₃.tail).bind fun ⟨otherwise, rest₄, h₄⟩ ↦ ?_
    exact (staysIn_expectKeyword .endWord rest₄).bind fun ⟨_, rest₅, h₅⟩ ↦ List.suffix_refl rest₅
  · exact (staysIn_expectKeyword .endWord rest₃).bind fun ⟨_, rest₄, h₄⟩ ↦ List.suffix_refl rest₄
termination_by 32 * ts.length + 18
decreasing_by
  all_goals
    try simp only [Level.height]
    omega

end

/-- A reader takes up tokens: what it reads is made of the first ones, at least one of them. -/
def TakesUp {α : Type} (read : (ts : List Lexeme) → Except ParseError (Parsed α ts)) : Prop :=
  ∀ ts p, read ts = .ok p → ∃ used, used ≠ [] ∧ ts = used ++ p.rest

theorem takesUp_of_staysIn {α : Type} {read : (ts : List Lexeme) → Except ParseError (Parsed α ts)}
    (h : ∀ ts, StaysIn Parsed.rest ts (read ts)) : TakesUp read := by
  intro ts p hp
  have hstays := h ts
  rw [hp] at hstays
  obtain ⟨used, hused⟩ : p.rest <:+ ts := hstays
  refine ⟨used, ?_, hused.symm⟩
  rintro rfl
  exact Nat.ne_of_lt p.shorter (congrArg List.length hused)

/-! ## Whole texts -/

theorem staysIn_expectEnd (ts : List Lexeme) : StaysIn (fun _ ↦ []) ts (expectEnd ts) := by
  unfold expectEnd
  split
  · exact List.nil_suffix
  · exact .failAt
  · exact .unexpectedAt

theorem staysIn_parseExpr (ts : List Lexeme) : StaysIn (fun _ ↦ []) ts (parseExpr ts) := by
  unfold parseExpr
  refine (staysIn_parseLevel .comparison ts).bind fun ⟨e, rest, h⟩ ↦ ?_
  exact StaysIn.mono ((staysIn_expectEnd rest).bind fun _ ↦ List.suffix_refl [])
    (List.suffix_refl rest)

theorem staysIn_parseStatement (ts : List Lexeme) :
    StaysIn (fun _ ↦ []) ts (parseStatement ts) := by
  unfold parseStatement
  split
  · refine (staysIn_parseCellRef ts).bind fun ⟨target, rest, h⟩ ↦ ?_
    dsimp only
    split
    · refine StaysIn.mono ?_ (List.tail_suffix rest)
      exact (staysIn_parseExpr rest.tail).bind fun e ↦ List.suffix_refl []
    · exact .failAt
  · exact .failAt

/-- An error of a text: a wrong number of arguments, or a fault at a byte of the text without the
blanks at its ends at which a character begins or the text ends. -/
inductive ReportedWithin (text : String) (subFormula : Option String) : FormulaError → Prop
  | arity (fault : ArityFault) : ReportedWithin text subFormula (.arity fault)
  | fault (offset : Nat) (fault : SyntaxFault)
      (inside : offset ≤ byteLength (Text.trim text.toList))
      (boundary : IsBoundary (Text.trim text.toList) offset) :
      ReportedWithin text subFormula (.parse offset subFormula fault)

/-- **Faults point into the text.** A reader that stays within the tokens reports its faults within
the text. -/
theorem reportedWithin_of_staysIn {α : Type} {left : α → List Lexeme}
    {read : List Lexeme → Except ParseError α} (hread : ∀ ts, StaysIn left ts (read ts))
    {subFormula : Option String} {text : String} {err : FormulaError}
    (h : readWith read subFormula text = .error err) : ReportedWithin text subFormula err := by
  have hstays := hread (lexemesOf text).1
  rw [readWith] at h
  dsimp only at h
  split at h
  · cases h
  · rename_i failure hfailure
    rw [hfailure] at hstays
    cases h
    cases failure with
    | arity fault => exact .arity fault
    | fault offset fault =>
      obtain ⟨rest, ⟨used, hused⟩, rfl⟩ := hstays
      have hboundary : IsBoundary (Text.trim text.toList)
          ((offsetOf rest).getD (lexemesOf text).2) := by
        cases rest with
        | nil => exact isBoundary_byteLength _
        | cons t rest =>
          refine isBoundary_of_mem_tokens (t := t) ?_
          have hmem : t ∈ used ++ t :: rest := List.mem_append_right _ List.mem_cons_self
          rwa [hused] at hmem
      exact .fault _ fault hboundary.le hboundary

/-! ## The size of what is read -/

/-- The number of nodes of what a phrase stands for. -/
def Phrase.nodeCount : (p : Phrase) → p.Meaning → Nat
  | args, es => (Expr.nodesOfAll es).length
  | list, es => (Expr.nodesOfAll es).length
  | arms, es => (Expr.nodesOfAll es).length
  | level _, e => e.nodes.length
  | operand _, e => e.nodes.length
  | power, e => e.nodes.length
  | signed, e => e.nodes.length
  | primary, e => e.nodes.length

/-- **No node without a token.** What is read has no more nodes than tokens. -/
theorem Derives.nodeCount_le {p : Phrase} {tokens : List Token} {m : p.Meaning}
    (h : Derives p tokens m) : p.nodeCount m ≤ tokens.length := by
  induction h with
  | single _ ih => exact ih
  | sum _ ih => exact ih
  | product _ ih => exact ih
  | power _ ih => exact ih
  | base _ ih => exact ih
  | unsigned _ ih => exact ih
  | someArgs _ ih => exact ih
  | plus _ ih => exact Nat.le_succ_of_le ih
  | noArgs => exact Nat.le_refl _
  | number | subFormula | constant | reference | aggregate =>
    simp only [Phrase.nodeCount, Expr.nodes, List.length_cons, List.length_nil]
    omega
  | cell href =>
    obtain ⟨t, more, rfl, -⟩ := (Derives.cell href).exists_cons (by simp)
    simp only [Phrase.nodeCount, Expr.nodes, List.length_cons, List.length_nil]
    omega
  | chain _ _ _ ihleft ihright | raise _ _ ihleft ihright | more _ _ ihleft ihright =>
    simp only [Phrase.nodeCount, Expr.nodes, Expr.nodesOfAll, List.length_cons,
      List.length_append] at ihleft ihright ⊢
    omega
  | negate _ ih | parens _ ih | call _ _ _ _ ih | caseWhen _ _ _ ih | one _ ih =>
    simp only [Phrase.nodeCount, Expr.nodes, Expr.nodesOfAll, List.length_cons,
      List.length_append, List.length_nil] at ih ⊢
    omega
  | lastArm _ _ _ _ iha ihb =>
    simp only [Phrase.nodeCount, Expr.nodesOfAll, List.length_cons, List.length_append,
      List.length_nil] at iha ihb ⊢
    omega
  | elseArm _ _ _ _ _ _ iha ihb ihc | moreArms _ _ _ _ _ iha ihb ihc =>
    simp only [Phrase.nodeCount, Expr.nodesOfAll, List.length_cons, List.length_append,
      List.length_nil] at iha ihb ihc ⊢
    omega

theorem DerivesStatement.nodeCount_le {tokens : List Token} {s : Statement}
    (h : DerivesStatement tokens s) : s.expr.nodes.length ≤ tokens.length := by
  cases h with
  | @mk target ref tokens e _ he =>
    have hcount : e.nodes.length ≤ tokens.length := he.nodeCount_le
    show e.nodes.length ≤ (target ++ .symbol .equal :: tokens).length
    rw [List.length_append, List.length_cons]
    omega

/-- **Reading stays within the text.** Whatever a text is, without the blanks at its ends it is
tiled by blanks and by its tokens, each of one character or more; and each reader that readers of
expressions lead back to takes up a token or more. So an expression or a formula is read, and it has
no more nodes than there are tokens, or there is an error: a wrong number of arguments, or a fault
at a byte of the text at which a character begins or the text ends. -/
theorem reading_within_text (text : String) :
    Tiles 0 (Text.trim text.toList) (lexemesOf text).1 ∧
      (lexemesOf text).1.length ≤ (Text.trim text.toList).length ∧
      ((∀ level, TakesUp (parseLevel level)) ∧ (∀ level, TakesUp (parseOperand level)) ∧
        TakesUp parsePower ∧ TakesUp parseSigned ∧ TakesUp parsePrimary ∧ TakesUp parseArgs ∧
        TakesUp parseList ∧ TakesUp parseArms) ∧
      ((∃ e, Expr.ofText text = .ok e ∧ e.nodes.length ≤ (lexemesOf text).1.length) ∨
        ∃ err, Expr.ofText text = .error err ∧ ReportedWithin text none err) ∧
      ((∃ s, Statement.ofText text = .ok s ∧ s.expr.nodes.length ≤ (lexemesOf text).1.length) ∨
        ∃ err, Statement.ofText text = .error err ∧ ReportedWithin text none err) := by
  have htiles : Tiles 0 (Text.trim text.toList) (lexemesOf text).1 := tiles_tokensFrom 0 _
  have hlength : (tokensOf text).length = (lexemesOf text).1.length := List.length_map _
  refine ⟨htiles, htiles.length_le, ?_, ?_, ?_⟩
  · exact ⟨fun level ↦ takesUp_of_staysIn (staysIn_parseLevel level),
      fun level ↦ takesUp_of_staysIn (staysIn_parseOperand level),
      takesUp_of_staysIn staysIn_parsePower, takesUp_of_staysIn staysIn_parseSigned,
      takesUp_of_staysIn staysIn_parsePrimary, takesUp_of_staysIn staysIn_parseArgs,
      takesUp_of_staysIn staysIn_parseList, takesUp_of_staysIn staysIn_parseArms⟩
  · cases h : Expr.ofText text with
    | ok e =>
      have hcount := (Expr.ofText_eq_ok_iff.mp h).nodeCount_le
      exact .inl ⟨e, rfl, hlength ▸ hcount⟩
    | error err => exact .inr ⟨err, rfl, reportedWithin_of_staysIn staysIn_parseExpr h⟩
  · cases h : Statement.ofText text with
    | ok s =>
      have hcount := (Statement.ofText_eq_ok_iff.mp h).nodeCount_le
      exact .inl ⟨s, rfl, hlength ▸ hcount⟩
    | error err => exact .inr ⟨err, rfl, reportedWithin_of_staysIn staysIn_parseStatement h⟩

/-- A parenthesis is missed at the token that stands in its place. It begins at byte 9 and is the
ninth character, since the letter before it takes up two bytes. -/
theorem reading_within_text_accent :
    Expr.ofText " REF('é' 1" =
        .error (.parse 9 none (.unexpected (some (.number "1")) (.expectedSymbol .rightParen))) ∧
      ReportedWithin " REF('é' 1" none
        (.parse 9 none (.unexpected (some (.number "1")) (.expectedSymbol .rightParen))) := by
  have hread : Expr.ofText " REF('é' 1" =
      .error (.parse 9 none (.unexpected (some (.number "1")) (.expectedSymbol .rightParen))) := by
    decide +kernel
  obtain ⟨-, -, -, hresult, -⟩ := reading_within_text " REF('é' 1"
  refine ⟨hread, ?_⟩
  rcases hresult with ⟨e, he, -⟩ | ⟨err, herr, hreported⟩
  · rw [hread] at he
    cases he
  · rw [hread] at herr
    cases herr
    exact hreported

end PlanLedger.Formula
