import PlanLedger.Decimal.Text
import PlanLedger.Formula.Fault
import PlanLedger.Formula.Syntax

/-!
# Reading formulas

The grammar is read from left to right without looking back. Comparisons bind weakest, then sums,
products, powers and signs; the first three group from the left and powers from the right. Each
reader gives what it read and the tokens after it, which are fewer than before, so reading ends.
-/

namespace PlanLedger.Formula

/-! ## Readers -/

/-- What was read from the beginning of a list of tokens. -/
structure Parsed (α : Type) (ts : List Lexeme) where
  value : α
  rest : List Lexeme
  shorter : rest.length < ts.length

/-- What was read from the beginning of a list of tokens, where nothing may have been read. -/
structure ParsedMore (α : Type) (ts : List Lexeme) where
  value : α
  rest : List Lexeme
  noLonger : rest.length ≤ ts.length

/-- The byte at which a list of tokens begins; none stands for the end of the text. -/
def offsetOf (ts : List Lexeme) : Option Nat := ts.head?.map Lexeme.offset

/-- Fails at the first token. -/
def failAt {α : Type} (ts : List Lexeme) (fault : SyntaxFault) : Except ParseError α :=
  .error (.fault (offsetOf ts) fault)

/-- Fails because the first token does not belong at a place. -/
def unexpectedAt {α : Type} (ts : List Lexeme) (place : Place) : Except ParseError α :=
  match ts with
  | ⟨.invalid fault, _⟩ :: _ => failAt ts (.scan fault)
  | t :: _ => failAt ts (.unexpected (some t.token) place)
  | [] => failAt ts (.unexpected none place)

def startsWith (s : Symbol) : List Lexeme → Bool
  | t :: _ => t.token == .symbol s
  | [] => false

def expectSymbol (s : Symbol) (ts : List Lexeme) : Except ParseError (Parsed Unit ts) :=
  match ts with
  | t :: rest =>
    if t.token = .symbol s then .ok ⟨(), rest, by simp⟩
    else unexpectedAt (t :: rest) (.expectedSymbol s)
  | [] => unexpectedAt [] (.expectedSymbol s)

/-- Whether a token is a keyword, whatever the case of its letters. -/
def isKeyword (k : Keyword) : Token → Bool
  | .word text => text.toUpper == k.text
  | _ => false

def startsWithKeyword (k : Keyword) : List Lexeme → Bool
  | t :: _ => isKeyword k t.token
  | [] => false

def expectKeyword (k : Keyword) (ts : List Lexeme) : Except ParseError (Parsed Unit ts) :=
  match ts with
  | t :: rest =>
    if isKeyword k t.token then .ok ⟨(), rest, by simp⟩
    else unexpectedAt (t :: rest) (.expectedKeyword k)
  | [] => unexpectedAt [] (.expectedKeyword k)

/-! ## References -/

/-- The text of a token that may stand for a code: a word, a number or a quoted text. -/
def codeOf? : Token → Option String
  | .word text => some text
  | .number text => some text
  | .quoted text => some text
  | _ => none

/-- Whether a name after a dollar sign asks for the value of the current combination. -/
def isLoopName (name : String) : Bool := name.toUpper == "LOOP"

def parseDimValue (ts : List Lexeme) : Except ParseError (Parsed DimValue ts) :=
  match ts with
  | t :: rest =>
    match codeOf? t.token, t.token with
    | some code, _ => .ok ⟨.code code, rest, by simp⟩
    | none, .dollar name =>
      if isLoopName name then .ok ⟨.loop, rest, by simp⟩
      else failAt (t :: rest) (.notADimensionValue name)
    | none, _ => unexpectedAt (t :: rest) .dimensionValue
  | [] => unexpectedAt [] .dimensionValue

def parseDimFilter (ts : List Lexeme) : Except ParseError (Parsed DimFilter ts) :=
  match ts with
  | ⟨.word name, _⟩ :: rest => do
    let ⟨_, rest, h₁⟩ ← expectSymbol .equal rest
    let ⟨value, rest, h₂⟩ ← parseDimValue rest
    return ⟨⟨.ofName name, value⟩, rest, by simp only [List.length_cons]; omega⟩
  | ts => unexpectedAt ts .dimensionName

/-- Reads dimension filters, each after a comma. -/
def parseMoreFilters (ts : List Lexeme) : Except ParseError (ParsedMore (List DimFilter) ts) :=
  match ts with
  | ⟨.symbol .comma, _⟩ :: rest => do
    let ⟨filter, rest', h₁⟩ ← parseDimFilter rest
    let ⟨filters, rest'', h₂⟩ ← parseMoreFilters rest'
    return ⟨filter :: filters, rest'', by simp only [List.length_cons]; omega⟩
  | ts => .ok ⟨[], ts, Nat.le_refl _⟩
termination_by ts.length
decreasing_by simp only [List.length_cons]; omega

/-- Reads the code of a key figure. A fault is found only after the token. -/
def parseKeyFigureCode (ts : List Lexeme) : Except ParseError (Parsed String ts) :=
  match ts with
  | t :: rest =>
    match codeOf? t.token, t.token with
    | some code, _ => .ok ⟨code, rest, by simp⟩
    | none, .dollar _ => failAt rest .keyFigureLoop
    | none, _ => failAt rest .keyFigureMissing
  | [] => failAt [] .keyFigureMissing

/-- Reads the key figure after the filters of a cell reference. -/
def parseKeyFigure (filters : List DimFilter) (ts : List Lexeme) :
    Except ParseError (Parsed CellRef ts) := do
  let optional := startsWith .question ts
  let afterMark := if optional then ts.tail else ts
  have h₀ : afterMark.length ≤ ts.length := by
    simp only [afterMark]
    split <;> simp
  if startsWith .dot afterMark then
    let ⟨_, rest, h₁⟩ ← expectSymbol .leftBracket afterMark.tail
    let ⟨code, rest, h₂⟩ ← parseKeyFigureCode rest
    let ⟨_, rest, h₃⟩ ← expectSymbol .rightBracket rest
    return ⟨{ filters, keyFigure := .code code, optional }, rest, by
      simp only [List.length_tail] at h₁; omega⟩
  else unexpectedAt afterMark .keyFigureReference

/-- Reads the closing bracket of a cell reference that names nothing but a key figure. -/
def parseBare (code : String) (ts : List Lexeme) : Except ParseError (Parsed CellRef ts) := do
  let ⟨_, rest, h⟩ ← expectSymbol .rightBracket ts
  return ⟨.bare code, rest, h⟩

/-- Reads the first filter after its dimension, the other filters and the key figure. -/
def parseFilters (name : String) (ts : List Lexeme) : Except ParseError (Parsed CellRef ts) := do
  let ⟨value, rest, h₁⟩ ← parseDimValue ts
  let ⟨filters, rest, h₂⟩ ← parseMoreFilters rest
  let ⟨_, rest, h₃⟩ ← expectSymbol .rightBracket rest
  let ⟨ref, rest, h₄⟩ ← parseKeyFigure (⟨.ofName name, value⟩ :: filters) rest
  return ⟨ref, rest, by omega⟩

/-- Reads a cell reference after its opening bracket. -/
def parseInBrackets (ts : List Lexeme) : Except ParseError (Parsed CellRef ts) :=
  match ts with
  | ⟨.symbol .rightBracket, _⟩ :: rest => do
    let ⟨ref, rest, h⟩ ← parseKeyFigure [] rest
    return ⟨ref, rest, by simp only [List.length_cons]; omega⟩
  | ⟨.word name, _⟩ :: ⟨.symbol .rightBracket, _⟩ :: rest =>
    .ok ⟨.bare name, rest, by simp only [List.length_cons]; omega⟩
  | ⟨.word name, _⟩ :: ⟨.symbol .equal, _⟩ :: rest => do
    let ⟨ref, rest, h⟩ ← parseFilters name rest
    return ⟨ref, rest, by simp only [List.length_cons]; omega⟩
  | ⟨.word _, _⟩ :: rest => unexpectedAt rest .inCellReference
  | ⟨.number code, _⟩ :: rest => do
    let ⟨ref, rest, h⟩ ← parseBare code rest
    return ⟨ref, rest, by simp only [List.length_cons]; omega⟩
  | ⟨.quoted code, _⟩ :: rest => do
    let ⟨ref, rest, h⟩ ← parseBare code rest
    return ⟨ref, rest, by simp only [List.length_cons]; omega⟩
  | ts => unexpectedAt ts .inCellReference

def parseCellRef (ts : List Lexeme) : Except ParseError (Parsed CellRef ts) := do
  let ⟨_, rest, h₁⟩ ← expectSymbol .leftBracket ts
  let ⟨ref, rest, h₂⟩ ← parseInBrackets rest
  return ⟨ref, rest, by omega⟩

/-- Reads what an aggregate is taken of: a cell reference, or a key figure without brackets. -/
def parseAggregate (kind : Aggregate) (ts : List Lexeme) : Except ParseError (Parsed Expr ts) :=
  match ts with
  | ⟨.symbol .leftBracket, o⟩ :: rest => do
    let ⟨ref, rest, h⟩ ← parseCellRef (⟨.symbol .leftBracket, o⟩ :: rest)
    return ⟨.cell { ref with aggregate := some kind }, rest, h⟩
  | ⟨.word code, _⟩ :: rest =>
    .ok ⟨.cell { CellRef.bare code with aggregate := some kind }, rest, by simp⟩
  | ⟨.quoted code, _⟩ :: rest =>
    .ok ⟨.cell { CellRef.bare code with aggregate := some kind }, rest, by simp⟩
  | ts => unexpectedAt ts (.afterAggregate kind)

/-- The name of reference data: a quoted text or a word. -/
def referenceNameOf? : Token → Option String
  | .quoted name => some name
  | .word name => some name
  | _ => none

/-- Reads a look-up in reference data after its opening parenthesis. -/
def parseReference (ts : List Lexeme) : Except ParseError (Parsed Expr ts) :=
  match ts with
  | t :: rest =>
    match referenceNameOf? t.token with
    | some name => do
      let ⟨filters, rest, h₁⟩ ← parseMoreFilters rest
      let ⟨_, rest, h₂⟩ ← expectSymbol .rightParen rest
      return ⟨.reference ⟨name, filters⟩, rest, Nat.lt_succ_of_lt (Nat.lt_of_lt_of_le h₂ h₁)⟩
    | none => unexpectedAt (t :: rest) .referenceName
  | [] => unexpectedAt [] .referenceName

/-- Whether a word may name a constant: capitals, digits and underscores after a capital. -/
def isConstantName (s : String) : Bool :=
  match s.toList with
  | c :: rest => c.isUpper && rest.all fun c ↦ c.isUpper || c.isDigit || c == '_'
  | [] => false

/-- Reads a word that stands for itself, before the tokens `ts`. -/
def parseConstant (word : String) (ts : List Lexeme) : Except ParseError (ParsedMore Expr ts) :=
  match Keyword.ofCapitals? word.toUpper with
  | some k => failAt ts (.unexpectedKeyword k)
  | none =>
    if startsWith .dot ts then failAt ts .memberAccess
    else if isConstantName word then .ok ⟨.constant word, ts, Nat.le_refl _⟩
    else failAt ts (.unknownWord word)

/-! ## Expressions -/

/-- The levels of operators that group from the left, from the weakest to the strongest. -/
inductive Level where
  | comparison
  | sum
  | product
deriving DecidableEq

def Level.op? : Level → Symbol → Option BinaryOp
  | comparison, .equal => some (.comparison .equal)
  | comparison, .notEqual => some (.comparison .notEqual)
  | comparison, .less => some (.comparison .less)
  | comparison, .lessEqual => some (.comparison .lessEqual)
  | comparison, .greater => some (.comparison .greater)
  | comparison, .greaterEqual => some (.comparison .greaterEqual)
  | sum, .plus => some (.arithmetic .add)
  | sum, .minus => some (.arithmetic .subtract)
  | product, .star => some (.arithmetic .multiply)
  | product, .slash => some (.arithmetic .divide)
  | _, _ => none

/-- The operator with which a list of tokens begins on a level. -/
def Level.opOf? (level : Level) : List Lexeme → Option BinaryOp
  | ⟨.symbol s, _⟩ :: _ => level.op? s
  | _ => none

theorem Level.length_tail_lt {level : Level} {ts : List Lexeme} {op : BinaryOp}
    (h : level.opOf? ts = some op) : ts.tail.length < ts.length := by
  cases ts with
  | nil => simp [opOf?] at h
  | cons => simp

/-- The number of levels below a level, with those of powers, signs and primaries. -/
def Level.height : Level → Nat
  | comparison => 8
  | sum => 7
  | product => 6

mutual

/-- Reads the operands and operators of a level. -/
def parseLevel (level : Level) (ts : List Lexeme) : Except ParseError (Parsed Expr ts) := do
  let ⟨left, rest, h₁⟩ ← parseOperand level ts
  let ⟨e, rest, h₂⟩ ← parseChain level left rest
  return ⟨e, rest, by omega⟩
termination_by 32 * ts.length + 2 * level.height + 1
decreasing_by
  all_goals cases level <;> simp only [Level.height] <;> omega

/-- Reads one operand of a level, which belongs to the next level. -/
def parseOperand (level : Level) (ts : List Lexeme) : Except ParseError (Parsed Expr ts) :=
  match level with
  | .comparison => parseLevel .sum ts
  | .sum => parseLevel .product ts
  | .product => parsePower ts
termination_by 32 * ts.length + 2 * level.height
decreasing_by
  all_goals simp only [Level.height]; omega

/-- Reads further operators and operands of a level after the expression `left`. -/
def parseChain (level : Level) (left : Expr) (ts : List Lexeme) :
    Except ParseError (ParsedMore Expr ts) :=
  match h : level.opOf? ts with
  | some op => do
    let ⟨right, rest, h₁⟩ ← parseOperand level ts.tail
    let ⟨e, rest, h₂⟩ ← parseChain level (.binary op left right) rest
    return ⟨e, rest, by have := Level.length_tail_lt h; omega⟩
  | none => .ok ⟨left, ts, Nat.le_refl _⟩
termination_by 32 * ts.length
decreasing_by
  all_goals
    have := Level.length_tail_lt h
    clear h
    cases level <;> (try simp only [Level.height]) <;> omega

def parsePower (ts : List Lexeme) : Except ParseError (Parsed Expr ts) := do
  let ⟨base, rest, h₁⟩ ← parseSigned ts
  if startsWith .caret rest then
    let ⟨exponent, rest, h₂⟩ ← parsePower rest.tail
    return ⟨.binary (.arithmetic .power) base exponent, rest, by
      simp only [List.length_tail] at h₂; omega⟩
  else return ⟨base, rest, h₁⟩
termination_by 32 * ts.length + 10
decreasing_by
  · omega
  · simp only [List.length_tail]; omega

/-- Reads an expression with the signs before it. A plus sign leaves no trace. -/
def parseSigned (ts : List Lexeme) : Except ParseError (Parsed Expr ts) :=
  match ts with
  | ⟨.symbol .minus, _⟩ :: rest => do
    let ⟨e, rest, h⟩ ← parseSigned rest
    return ⟨.negate e, rest, by simp only [List.length_cons]; omega⟩
  | ⟨.symbol .plus, _⟩ :: rest => do
    let ⟨e, rest, h⟩ ← parseSigned rest
    return ⟨e, rest, by simp only [List.length_cons]; omega⟩
  | ts => parsePrimary ts
termination_by 32 * ts.length + 8
decreasing_by
  · simp only [List.length_cons]; omega
  · simp only [List.length_cons]; omega
  · omega

/-- Reads an expression without signs and operators around it. -/
def parsePrimary (ts : List Lexeme) : Except ParseError (Parsed Expr ts) :=
  match ts with
  | ⟨.number text, o⟩ :: rest =>
    match Decimal.ofNumeral? text with
    | some value => .ok ⟨.number value, rest, by simp⟩
    | none => failAt (⟨.number text, o⟩ :: rest) (.invalidNumber text)
  | ⟨.symbol .leftParen, _⟩ :: rest => do
    let ⟨e, rest, h₁⟩ ← parseLevel .comparison rest
    let ⟨_, rest, h₂⟩ ← expectSymbol .rightParen rest
    return ⟨e, rest, by simp only [List.length_cons]; omega⟩
  | ⟨.symbol .leftBracket, o⟩ :: rest => do
    let ⟨ref, rest, h⟩ ← parseCellRef (⟨.symbol .leftBracket, o⟩ :: rest)
    return ⟨.cell ref, rest, h⟩
  | ⟨.dollar name, o⟩ :: rest =>
    if isLoopName name then failAt (⟨.dollar name, o⟩ :: rest) .loopOutsideFilter
    else .ok ⟨.subFormula name, rest, by simp⟩
  | ⟨.word word, _⟩ :: rest => do
    let ⟨e, rest, h⟩ ← parseWord word rest
    return ⟨e, rest, by simp only [List.length_cons]; omega⟩
  | ⟨.quoted text, o⟩ :: rest => failAt (⟨.quoted text, o⟩ :: rest) .misplacedText
  | ts => unexpectedAt ts .inExpression
termination_by 32 * ts.length + 6
decreasing_by
  · simp only [List.length_cons, Level.height]; omega
  · simp only [List.length_cons]; omega

/-- Reads what a word begins: an aggregate, a case distinction, a look-up, a call, or a constant.
The tokens are those after the word. -/
def parseWord (word : String) (ts : List Lexeme) : Except ParseError (ParsedMore Expr ts) :=
  match Aggregate.ofName? word, startsWith .colon ts with
  | some kind, true => do
    let ⟨e, rest, h⟩ ← parseAggregate kind ts.tail
    return ⟨e, rest, by simp only [List.length_tail] at h; omega⟩
  | _, _ =>
    if word.toUpper = Keyword.caseWord.text then do
      let ⟨_, rest, h₁⟩ ← expectKeyword .whenWord ts
      let ⟨args, rest, h₂⟩ ← parseArms rest
      return ⟨.call Function.caseWhen.name args, rest, by omega⟩
    else if startsWith .leftParen ts then
      if word.toUpper = "REF" then do
        let ⟨e, rest, h⟩ ← parseReference ts.tail
        return ⟨e, rest, by simp only [List.length_tail] at h; omega⟩
      else
        match Function.ofName? word with
        | none => failAt ts (.functionNotAllowed word.toUpper)
        | some f => do
          let ⟨_, rest, h₁⟩ ← expectSymbol .leftParen ts
          let ⟨args, rest, h₂⟩ ← parseArgs rest
          match f.checkArity args.length with
          | .ok () => return ⟨.call f.name args, rest, by omega⟩
          | .error fault => .error (.arity fault)
    else parseConstant word ts
termination_by 32 * ts.length + 4

/-- Reads the arguments of a call after its opening parenthesis, with the closing one. -/
def parseArgs (ts : List Lexeme) : Except ParseError (Parsed (List Expr) ts) :=
  match ts with
  | ⟨.symbol .rightParen, _⟩ :: rest => .ok ⟨[], rest, by simp⟩
  | ts => do
    let ⟨args, rest, h₁⟩ ← parseList ts
    let ⟨_, rest, h₂⟩ ← expectSymbol .rightParen rest
    return ⟨args, rest, by omega⟩
termination_by 32 * ts.length + 19

/-- Reads one expression or more, with commas between them. -/
def parseList (ts : List Lexeme) : Except ParseError (Parsed (List Expr) ts) := do
  let ⟨e, rest, h₁⟩ ← parseLevel .comparison ts
  if startsWith .comma rest then
    let ⟨more, rest, h₂⟩ ← parseList rest.tail
    return ⟨e :: more, rest, by simp only [List.length_tail] at h₂; omega⟩
  else return ⟨[e], rest, h₁⟩
termination_by 32 * ts.length + 18
decreasing_by
  · simp only [Level.height]; omega
  · simp only [List.length_tail]; omega

/-- Reads the arms of a case distinction after the first `WHEN`, up to its end. -/
def parseArms (ts : List Lexeme) : Except ParseError (Parsed (List Expr) ts) := do
  let ⟨condition, rest, h₁⟩ ← parseLevel .comparison ts
  let ⟨_, rest, h₂⟩ ← expectKeyword .thenWord rest
  let ⟨value, rest, h₃⟩ ← parseLevel .comparison rest
  if startsWithKeyword .whenWord rest then
    let ⟨more, rest, h₄⟩ ← parseArms rest.tail
    return ⟨condition :: value :: more, rest, by simp only [List.length_tail] at h₄; omega⟩
  else if startsWithKeyword .elseWord rest then
    let ⟨otherwise, rest, h₄⟩ ← parseLevel .comparison rest.tail
    let ⟨_, rest, h₅⟩ ← expectKeyword .endWord rest
    return ⟨[condition, value, otherwise], rest, by simp only [List.length_tail] at h₄; omega⟩
  else
    let ⟨_, rest, h₄⟩ ← expectKeyword .endWord rest
    return ⟨[condition, value], rest, by omega⟩
termination_by 32 * ts.length + 18
decreasing_by
  all_goals
    simp only [List.length_tail, Level.height]
    omega

end

/-! ## Whole texts -/

def expectEnd (ts : List Lexeme) : Except ParseError Unit :=
  match ts with
  | [] => .ok ()
  | ⟨.symbol .dot, _⟩ :: _ => failAt ts .memberAccess
  | ts => unexpectedAt ts .afterExpression

/-- Reads an expression that takes up all tokens. -/
def parseExpr (ts : List Lexeme) : Except ParseError Expr := do
  let ⟨e, rest, _⟩ ← parseLevel .comparison ts
  expectEnd rest
  return e

/-- Reads a formula that takes up all tokens. -/
def parseStatement (ts : List Lexeme) : Except ParseError Statement := do
  if startsWith .leftBracket ts then
    let ⟨target, rest, _⟩ ← parseCellRef ts
    if startsWith .equal rest then return ⟨target, ← parseExpr rest.tail⟩
    else failAt rest .equalsMissing
  else failAt ts .targetMissing

end PlanLedger.Formula
