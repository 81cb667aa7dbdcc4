import PlanLedger.Text.CharClass

/-!
# The words of a formula

The text of a formula is cut into numbers, quoted texts, words, names after a dollar sign and
symbols. A character that begins none of them becomes a token of its own, so cutting never fails.
Each token is kept with the byte at which it begins.
-/

namespace PlanLedger.Formula

/-- A symbol. Equality and inequality have two spellings each. -/
inductive Symbol where
  | plus
  | minus
  | star
  | slash
  | caret
  | equal
  | notEqual
  | less
  | lessEqual
  | greater
  | greaterEqual
  | colon
  | comma
  | dot
  | question
  | leftParen
  | rightParen
  | leftBracket
  | rightBracket
deriving DecidableEq

/-- The first spelling of a symbol. -/
def Symbol.text : Symbol → String
  | plus => "+"
  | minus => "-"
  | star => "*"
  | slash => "/"
  | caret => "^"
  | equal => "="
  | notEqual => "<>"
  | less => "<"
  | lessEqual => "<="
  | greater => ">"
  | greaterEqual => ">="
  | colon => ":"
  | comma => ","
  | dot => "."
  | question => "?"
  | leftParen => "("
  | rightParen => ")"
  | leftBracket => "["
  | rightBracket => "]"

/-- A place in the text at which no token begins. -/
inductive ScanFault where
  | unexpectedCharacter (c : Char)
  /-- A quoted text without its closing quote. -/
  | unterminatedText
  /-- A dollar sign without a name. -/
  | namelessDollar
deriving DecidableEq

def ScanFault.message : ScanFault → String
  | unexpectedCharacter c => "unexpected character '" ++ String.singleton c ++ "'"
  | unterminatedText => "unterminated string"
  | namelessDollar => "'$' must be followed by a name"

/-- A token. -/
inductive Token where
  | number (text : String)
  | quoted (text : String)
  | word (text : String)
  | dollar (name : String)
  | symbol (s : Symbol)
  | invalid (fault : ScanFault)
deriving DecidableEq

def Token.describe : Token → String
  | number text => "number " ++ text
  | quoted text => "string '" ++ text ++ "'"
  | word text => "'" ++ text ++ "'"
  | dollar name => "'$" ++ name ++ "'"
  | symbol s => "'" ++ s.text ++ "'"
  | invalid fault => fault.message

/-- A token and the byte at which it begins. -/
structure Lexeme where
  token : Token
  offset : Nat
deriving DecidableEq

/-! ## Cutting off the first token

Each function gives what it read and the rest of the text, which is never longer. -/

/-- Whether a character may stand within a word. -/
def isWordChar (c : Char) : Bool := Text.isAlphanumeric c || c == '_'

def isWordStart (c : Char) : Bool := Text.isAlphabetic c || c == '_'

/-- What stands at the beginning of a text, and the rest. -/
structure Cut (α : Type) where
  value : α
  rest : List Char
deriving DecidableEq

/-- The longest beginning of characters of a kind. -/
def cutWhile (p : Char → Bool) (s : List Char) : Cut (List Char) := ⟨s.takeWhile p, s.dropWhile p⟩

/-- A quoted text after its opening quote; a quote within it is written twice. -/
def cutQuoted (quote : Char) : List Char → Cut (Option (List Char))
  | [] => ⟨none, []⟩
  | c :: rest =>
    if c = quote then
      match rest with
      | c' :: rest' =>
        if c' = quote then
          let cut := cutQuoted quote rest'
          ⟨cut.value.map (quote :: ·), cut.rest⟩
        else ⟨some [], rest⟩
      | [] => ⟨some [], []⟩
    else
      let cut := cutQuoted quote rest
      ⟨cut.value.map (c :: ·), cut.rest⟩

def beginsWithDigit : List Char → Bool
  | c :: _ => c.isDigit
  | [] => false

/-- The decimals of a number: a point and the digits after it, if there are any. -/
def cutDecimals : List Char → Cut (List Char)
  | '.' :: rest =>
    if beginsWithDigit rest then
      let digits := cutWhile Char.isDigit rest
      ⟨'.' :: digits.value, digits.rest⟩
    else ⟨[], '.' :: rest⟩
  | s => ⟨[], s⟩

/-- The sign of an exponent, if there is one. -/
def cutSign : List Char → Cut (List Char)
  | '+' :: rest => ⟨['+'], rest⟩
  | '-' :: rest => ⟨['-'], rest⟩
  | s => ⟨[], s⟩

/-- The exponent of a number: a mark, a sign and the digits after it, if there are any. -/
def cutExponent : List Char → Cut (List Char)
  | [] => ⟨[], []⟩
  | c :: rest =>
    let sign := cutSign rest
    if (c = 'e' ∨ c = 'E') ∧ beginsWithDigit sign.rest then
      let digits := cutWhile Char.isDigit sign.rest
      ⟨c :: sign.value ++ digits.value, digits.rest⟩
    else ⟨[], c :: rest⟩

/-- A number: digits, decimals and an exponent. -/
def cutNumber (s : List Char) : Cut Token :=
  let whole := cutWhile Char.isDigit s
  let decimals := cutDecimals whole.rest
  let exponent := cutExponent decimals.rest
  ⟨.number (.ofList (whole.value ++ decimals.value ++ exponent.value)), exponent.rest⟩

/-- A symbol with a second character, if that one follows. -/
def cutSymbol (rest : List Char) (next : Char) (short long : Token) : Cut Token :=
  match rest with
  | c :: rest' => if c = next then ⟨long, rest'⟩ else ⟨short, rest⟩
  | [] => ⟨short, []⟩

/-- The symbol that one character is, where no longer symbol begins with it. -/
def singleSymbol? : Char → Option Symbol
  | '+' => some .plus
  | '-' => some .minus
  | '*' => some .star
  | '/' => some .slash
  | '^' => some .caret
  | ':' => some .colon
  | ',' => some .comma
  | '?' => some .question
  | '(' => some .leftParen
  | ')' => some .rightParen
  | '[' => some .leftBracket
  | ']' => some .rightBracket
  | _ => none

def cutDollar (rest : List Char) : Cut Token :=
  let name := cutWhile isWordChar rest
  if name.value.isEmpty then ⟨.invalid .namelessDollar, name.rest⟩
  else ⟨.dollar (.ofList name.value), name.rest⟩

/-- The token that begins with the character `c`, which is no blank, before the text `rest`. -/
def cutToken (c : Char) (rest : List Char) : Cut Token :=
  match singleSymbol? c with
  | some s => ⟨.symbol s, rest⟩
  | none =>
    if c = '=' then cutSymbol rest '=' (.symbol .equal) (.symbol .equal)
    else if c = '!' then
      cutSymbol rest '=' (.invalid (.unexpectedCharacter '!')) (.symbol .notEqual)
    else if c = '<' then
      match rest with
      | '=' :: rest' => ⟨.symbol .lessEqual, rest'⟩
      | '>' :: rest' => ⟨.symbol .notEqual, rest'⟩
      | _ => ⟨.symbol .less, rest⟩
    else if c = '>' then cutSymbol rest '=' (.symbol .greater) (.symbol .greaterEqual)
    else if c = '\'' ∨ c = '"' then
      let cut := cutQuoted c rest
      match cut.value with
      | some text => ⟨.quoted (.ofList text), cut.rest⟩
      | none => ⟨.invalid .unterminatedText, cut.rest⟩
    else if c = '.' then
      if beginsWithDigit rest then cutNumber (c :: rest) else ⟨.symbol .dot, rest⟩
    else if c = '$' then cutDollar rest
    else if c.isDigit then cutNumber (c :: rest)
    else if isWordStart c then
      let word := cutWhile isWordChar rest
      ⟨.word (.ofList (c :: word.value)), word.rest⟩
    else ⟨.invalid (.unexpectedCharacter c), rest⟩

/-! ## The rest is never longer -/

theorem length_dropWhile_le (p : Char → Bool) (s : List Char) : (s.dropWhile p).length ≤ s.length :=
  (List.dropWhile_sublist p).length_le

theorem length_cutWhile_rest (p : Char → Bool) (s : List Char) :
    (cutWhile p s).rest.length ≤ s.length := length_dropWhile_le p s

theorem length_cutQuoted_rest (quote : Char) (s : List Char) :
    (cutQuoted quote s).rest.length ≤ s.length := by
  fun_induction cutQuoted quote s with
  | case1 => exact Nat.le_refl _
  | case2 afterPair cut ih => exact Nat.le_trans ih (Nat.le_add_right afterPair.length 2)
  | case3 next afterNext hnext => exact Nat.le_succ (next :: afterNext).length
  | case4 => exact Nat.zero_le _
  | case5 c rest hother cut ih => exact Nat.le_succ_of_le ih

theorem length_cutDecimals_rest (s : List Char) : (cutDecimals s).rest.length ≤ s.length := by
  unfold cutDecimals
  split
  · rename_i rest
    split
    · have := length_cutWhile_rest Char.isDigit rest
      simp only [List.length_cons]
      omega
    · simp
  · simp

theorem length_cutSign_rest (s : List Char) : (cutSign s).rest.length ≤ s.length := by
  unfold cutSign
  split <;> simp

theorem length_cutExponent_rest (s : List Char) : (cutExponent s).rest.length ≤ s.length := by
  unfold cutExponent
  split
  · simp
  · rename_i c rest
    have := length_cutSign_rest rest
    have := length_cutWhile_rest Char.isDigit (cutSign rest).rest
    simp only
    split <;> simp only [List.length_cons] <;> omega

theorem length_cutNumber_rest (s : List Char) :
    (cutNumber s).rest.length ≤ (s.dropWhile Char.isDigit).length := by
  have h1 := length_cutDecimals_rest (s.dropWhile Char.isDigit)
  have h2 := length_cutExponent_rest (cutDecimals (s.dropWhile Char.isDigit)).rest
  exact Nat.le_trans h2 h1

theorem length_cutSymbol_rest (rest : List Char) (next : Char) (short long : Token) :
    (cutSymbol rest next short long).rest.length ≤ rest.length := by
  unfold cutSymbol
  split
  · split <;> simp
  · simp

theorem length_cutNumber_dot {rest : List Char} (h : beginsWithDigit rest = true) :
    (cutNumber ('.' :: rest)).rest.length ≤ rest.length := by
  have hd : ('.' :: rest).dropWhile Char.isDigit = '.' :: rest := by
    rw [List.dropWhile_cons_of_neg]
    decide
  have h2 := length_cutExponent_rest (cutDecimals ('.' :: rest)).rest
  have h1 : (cutDecimals ('.' :: rest)).rest.length ≤ rest.length := by
    simp only [cutDecimals, h, if_true]
    exact length_cutWhile_rest Char.isDigit rest
  have h3 : (cutNumber ('.' :: rest)).rest =
      (cutExponent (cutDecimals ('.' :: rest)).rest).rest := by
    simp only [cutNumber, cutWhile, hd]
  rw [h3]
  omega

theorem length_cutNumber_digit {c : Char} {rest : List Char} (h : c.isDigit = true) :
    (cutNumber (c :: rest)).rest.length ≤ rest.length := by
  have hnumber := length_cutNumber_rest (c :: rest)
  rw [List.dropWhile_cons_of_pos h] at hnumber
  exact Nat.le_trans hnumber (length_dropWhile_le Char.isDigit rest)

theorem length_cutDollar_rest (rest : List Char) : (cutDollar rest).rest.length ≤ rest.length := by
  unfold cutDollar
  dsimp only
  split
  · exact length_cutWhile_rest isWordChar rest
  · exact length_cutWhile_rest isWordChar rest

theorem length_cutToken_rest (c : Char) (rest : List Char) :
    (cutToken c rest).rest.length ≤ rest.length := by
  fun_cases cutToken c rest
  case case1 hsingle => exact Nat.le_refl _
  case case2 hequal => exact length_cutSymbol_rest ..
  case case3 hbang => exact length_cutSymbol_rest ..
  case case4 hless afterEqual => exact Nat.le_succ afterEqual.length
  case case5 hless afterGreater => exact Nat.le_succ afterGreater.length
  case case6 hless _ _ => exact Nat.le_refl _
  case case7 hgreater => exact length_cutSymbol_rest ..
  case case8 hquote text cut hclosed => exact length_cutQuoted_rest c rest
  case case9 hquote cut hopen => exact length_cutQuoted_rest c rest
  case case10 hdot hdecimals =>
    subst hdot
    exact length_cutNumber_dot hdecimals
  case case11 hdot hbare => exact Nat.le_refl _
  case case12 hdollar => exact length_cutDollar_rest rest
  case case13 hdigit => exact length_cutNumber_digit hdigit
  case case14 hword word => exact length_cutWhile_rest isWordChar rest
  case case15 hother => exact Nat.le_refl _

/-! ## Cutting the whole text -/

def byteLength (s : List Char) : Nat := s.foldl (fun n c ↦ n + c.utf8Size) 0

/-- The tokens of a text that begins at a byte. -/
def tokensFrom (offset : Nat) : List Char → List Lexeme
  | [] => []
  | c :: rest =>
    if Text.isBlank c then tokensFrom (offset + c.utf8Size) rest
    else
      let cut := cutToken c rest
      ⟨cut.value, offset⟩ ::
        tokensFrom (offset + byteLength (c :: rest) - byteLength cut.rest) cut.rest
termination_by s => s.length
decreasing_by
  · simp
  · have := length_cutToken_rest c rest
    simp only [List.length_cons]
    omega

def tokens (s : List Char) : List Lexeme := tokensFrom 0 s

end PlanLedger.Formula
