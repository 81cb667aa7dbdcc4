import PlanLedger.Json.Binary

/-!
# Reading JSON

One value with blanks around it. Texts must not hold control characters. Three things are written
rightly and still have no value: a text with half a pair of surrogates, a number that is too large,
and an array or object below 127 others. They are read as unreadable values. Each reader gives the
text after what it read, which is shorter than before.
-/

namespace PlanLedger.Json

/-- What was read, and the shorter rest of the text. -/
structure Scanned (α : Type) (s : List Char) where
  value : α
  rest : List Char
  shorter : rest.length < s.length

def isBlank (c : Char) : Bool := c == ' ' || c == '\n' || c == '\t' || c == '\r'

/-- A text without the blanks at its beginning. -/
def skipBlanks (s : List Char) : List Char := s.dropWhile isBlank

theorem length_skipBlanks_le (s : List Char) : (skipBlanks s).length ≤ s.length :=
  (List.dropWhile_sublist isBlank).length_le

theorem length_lt_of_skipBlanks {s rest : List Char} {c : Char} (h : skipBlanks s = c :: rest) :
    rest.length < s.length := by
  have := length_skipBlanks_le s
  simp only [h, List.length_cons] at this
  omega

/-- Reads a character. -/
def expect? (c : Char) (s : List Char) : Option (Scanned Unit s) :=
  match s with
  | a :: rest => if a = c then some ⟨(), rest, by simp⟩ else none
  | [] => none

/-- Reads a word. -/
def word? (w : List Char) (s : List Char) : Option (Scanned Unit s) :=
  if h : w ≠ [] ∧ w.isPrefixOf s then
    some ⟨(), s.drop w.length, by
      have hw : 0 < w.length := List.length_pos_iff.2 h.1
      have hs : w.length ≤ s.length := (List.isPrefixOf_iff_prefix.1 h.2).length_le
      rw [List.length_drop]
      omega⟩
  else none

/-! ## Texts -/

def hexDigit? (c : Char) : Option Nat :=
  if c.isDigit then some (c.toNat - '0'.toNat)
  else if 'a' ≤ c ∧ c ≤ 'f' then some (c.toNat - 'a'.toNat + 10)
  else if 'A' ≤ c ∧ c ≤ 'F' then some (c.toNat - 'A'.toNat + 10)
  else none

def hex4? (s : List Char) : Option (Scanned Nat s) :=
  match s with
  | a :: b :: c :: d :: rest => do
    let a ← hexDigit? a
    let b ← hexDigit? b
    let c ← hexDigit? c
    let d ← hexDigit? d
    some ⟨((a * 16 + b) * 16 + c) * 16 + d, rest, by simp only [List.length_cons]; omega⟩
  | _ => none

/-- Reads the second half of a pair of surrogates after the first. -/
def lowSurrogate? (high : Nat) (s : List Char) : Option (Scanned Char s) :=
  match s with
  | '\\' :: 'u' :: rest => do
    let ⟨low, rest, h⟩ ← hex4? rest
    if 0xdc00 ≤ low ∧ low ≤ 0xdfff then
      some ⟨.ofNat (0x10000 + (high - 0xd800) * 0x400 + (low - 0xdc00)), rest, by
        simp only [List.length_cons]; omega⟩
    else none
  | _ => none

/-- Reads the character of an escape with a code after its mark. Half a pair of surrogates is no
character. -/
def escapedCode? (s : List Char) : Option (Scanned (Option Char) s) := do
  let ⟨code, rest, h⟩ ← hex4? s
  if 0xd800 ≤ code ∧ code ≤ 0xdbff then
    match lowSurrogate? code rest with
    | some ⟨c, rest, h'⟩ => some ⟨some c, rest, by omega⟩
    | none => some ⟨none, rest, h⟩
  else if 0xdc00 ≤ code ∧ code ≤ 0xdfff then some ⟨none, rest, h⟩
  else some ⟨some (.ofNat code), rest, h⟩

def escaped? (s : List Char) : Option (Scanned (Option Char) s) :=
  match s with
  | 'u' :: rest => do
    let ⟨c, rest, h⟩ ← escapedCode? rest
    some ⟨c, rest, by simp only [List.length_cons]; omega⟩
  | c :: rest =>
    let known : Option Char :=
      match c with
      | '"' => some '"'
      | '\\' => some '\\'
      | '/' => some '/'
      | 'b' => some '\x08'
      | 'f' => some '\x0c'
      | 'n' => some '\n'
      | 'r' => some '\r'
      | 't' => some '\t'
      | _ => none
    known.map fun c ↦ ⟨some c, rest, by simp⟩
  | [] => none

/-- A text with one more character in front, unless one of them is none. -/
def consChar (c : Option Char) (cs : Option (List Char)) : Option (List Char) := do
  some ((← c) :: (← cs))

/-- Reads a text after its opening quote, with the closing one. -/
def textEnd? (s : List Char) : Option (Scanned (Option (List Char)) s) :=
  match s with
  | [] => none
  | '"' :: rest => some ⟨some [], rest, by simp⟩
  | '\\' :: rest => do
    let ⟨c, rest, h₁⟩ ← escaped? rest
    let ⟨cs, rest, h₂⟩ ← textEnd? rest
    some ⟨consChar c cs, rest, by simp only [List.length_cons]; omega⟩
  | c :: rest =>
    if c.toNat < 0x20 then none
    else do
      let ⟨cs, rest, h⟩ ← textEnd? rest
      some ⟨consChar (some c) cs, rest, by simp only [List.length_cons]; omega⟩
termination_by s.length
decreasing_by all_goals (simp only [List.length_cons]; omega)

/-- Reads a text, which is none if a character of it is. -/
def text? (s : List Char) : Option (Scanned (Option String) s) := do
  let ⟨_, rest, h₁⟩ ← expect? '"' s
  let ⟨cs, rest, h₂⟩ ← textEnd? rest
  some ⟨cs.map .ofList, rest, by omega⟩

/-! ## Numbers -/

/-- The digits at the beginning of a text, and the rest. -/
def digitsOf (s : List Char) : List Char × List Char :=
  (s.takeWhile Char.isDigit, s.dropWhile Char.isDigit)

/-- The decimals at the beginning of a text, if a point begins it. -/
def decimalsOf? : List Char → Option (List Char × List Char)
  | '.' :: rest =>
    let (digits, rest) := digitsOf rest
    if digits.isEmpty then none else some (digits, rest)
  | s => some ([], s)

/-- The exponent at the beginning of a text, if a mark begins it. -/
def exponentOf? (s : List Char) : Option (Option Int × List Char) :=
  match s with
  | c :: rest =>
    if c = 'e' ∨ c = 'E' then
      let (negative, rest) : Bool × List Char :=
        match rest with
        | '-' :: rest => (true, rest)
        | '+' :: rest => (false, rest)
        | rest => (false, rest)
      let (digits, rest) := digitsOf rest
      if digits.isEmpty then none
      else (Text.digitsValue? digits).map fun n ↦ (some (if negative then -n else n), rest)
    else some (none, s)
  | [] => some (none, [])

/-- The digits that count in a fraction: as many from the first as fit into 64 bits, with the number
of those left out. -/
def significant (digits : List Char) : Nat × Nat :=
  digits.foldl
    (fun (value, dropped) c ↦
      let next := value * 10 + (c.toNat - '0'.toNat)
      if dropped = 0 ∧ next < 2 ^ 64 then (next, 0) else (value, dropped + 1))
    (0, 0)

/-- The number of digits, decimals and an exponent; one that is too large is unreadable. -/
def numberOf? (negative : Bool) (digits decimals : List Char) (exponent : Option Int) :
    Option Json := do
  let whole ← Text.digitsValue? digits
  let isWhole := decimals.isEmpty && exponent.isNone
  if isWhole && !negative && whole < 2 ^ 64 then some (integer whole)
  else if isWhole && negative && 0 < whole && whole ≤ 2 ^ 63 then some (integer (-whole))
  else
    let (value, dropped) := significant (digits ++ decimals)
    let power : Int := exponent.getD 0 + dropped - decimals.length
    match BinaryFraction.ofScientific? negative value power with
    | some x => some (fraction x)
    | none => some unreadable

def number? (s : List Char) : Option (Scanned Json s) :=
  let (negative, s') : Bool × List Char :=
    match s with
    | '-' :: rest => (true, rest)
    | s => (false, s)
  let (digits, rest) := digitsOf s'
  if digits.isEmpty || (digits.head? == some '0' && 1 < digits.length) then none
  else do
    let (decimals, rest) ← decimalsOf? rest
    let (exponent, rest) ← exponentOf? rest
    let n ← numberOf? negative digits decimals exponent
    if h : rest.length < s.length then some ⟨n, rest, h⟩ else none

/-! ## Values -/

mutual

/-- Reads a value after blanks, with room for some levels of nesting. Without room, arrays and
objects are unreadable. -/
def value? (room : Nat) (s : List Char) : Option (Scanned Json s) :=
  match hs : skipBlanks s with
  | [] => none
  | c :: rest => do
    have hlt := length_lt_of_skipBlanks hs
    if c = '"' then
      let ⟨cs, rest', h⟩ ← textEnd? rest
      some ⟨(cs.map fun cs ↦ string (.ofList cs)).getD unreadable, rest', by omega⟩
    else if c = '[' then
      match hr : skipBlanks rest with
      | ']' :: rest' =>
        some ⟨if room = 0 then unreadable else array [], rest',
          Nat.lt_trans (length_lt_of_skipBlanks hr) hlt⟩
      | _ =>
        let ⟨items, rest', h⟩ ← items? (room - 1) rest
        some ⟨if room = 0 then unreadable else array items, rest', by omega⟩
    else if c = '\x7b' then
      match hr : skipBlanks rest with
      | '\x7d' :: rest' =>
        some ⟨if room = 0 then unreadable else object [], rest',
          Nat.lt_trans (length_lt_of_skipBlanks hr) hlt⟩
      | _ =>
        let ⟨members, rest', h⟩ ← members? (room - 1) rest
        some ⟨if room = 0 then unreadable else (members.map object).getD unreadable, rest',
          by omega⟩
    else if c = 'n' then
      let ⟨_, rest', h⟩ ← word? "null".toList (c :: rest)
      some ⟨null, rest', by simp only [List.length_cons] at h; omega⟩
    else if c = 't' then
      let ⟨_, rest', h⟩ ← word? "true".toList (c :: rest)
      some ⟨bool true, rest', by simp only [List.length_cons] at h; omega⟩
    else if c = 'f' then
      let ⟨_, rest', h⟩ ← word? "false".toList (c :: rest)
      some ⟨bool false, rest', by simp only [List.length_cons] at h; omega⟩
    else
      let ⟨n, rest', h⟩ ← number? (c :: rest)
      some ⟨n, rest', by simp only [List.length_cons] at h; omega⟩
termination_by 4 * s.length

/-- Reads the values of an array, with the closing bracket. -/
def items? (room : Nat) (s : List Char) : Option (Scanned (List Json) s) := do
  let ⟨item, rest, h⟩ ← value? room s
  match hr : skipBlanks rest with
  | c :: rest' =>
    have hlt := length_lt_of_skipBlanks hr
    if c = ']' then some ⟨[item], rest', by omega⟩
    else if c = ',' then
      let ⟨more, rest'', h'⟩ ← items? room rest'
      some ⟨item :: more, rest'', by omega⟩
    else none
  | [] => none
termination_by 4 * s.length + 1

/-- Reads the members of an object, with the closing brace. There are none of them if one of the
names is none. -/
def members? (room : Nat) (s : List Char) : Option (Scanned (Option (List (String × Json))) s) := do
  let ⟨name, rest₁, h₁⟩ ← text? (skipBlanks s)
  let ⟨_, rest₂, h₂⟩ ← expect? ':' (skipBlanks rest₁)
  have h : rest₂.length < s.length := by
    have := length_skipBlanks_le s
    have := length_skipBlanks_le rest₁
    omega
  let ⟨value, rest, h₃⟩ ← value? room rest₂
  match hr : skipBlanks rest with
  | c :: rest' =>
    have hlt := length_lt_of_skipBlanks hr
    let first := name.map fun name ↦ (name, value)
    if c = '\x7d' then some ⟨first.map ([·]), rest', by omega⟩
    else if c = ',' then
      let ⟨more, rest'', h'⟩ ← members? room rest'
      some ⟨do some ((← first) :: (← more)), rest'', by omega⟩
    else none
  | [] => none
termination_by 4 * s.length + 2

end

/-- The value that a text holds, whose unreadable parts are kept as such. -/
def ofText? (text : String) : Option Json := do
  let ⟨v, rest, _⟩ ← value? 127 text.toList
  if (skipBlanks rest).isEmpty then some v else none

end PlanLedger.Json
