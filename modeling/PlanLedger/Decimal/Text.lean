import PlanLedger.Decimal.Arithmetic
import PlanLedger.Text.Digits

/-!
# Decimal numbers as text

A number is written with exactly its decimals. A written number is read from left to right: a sign,
digits with at most one point among them, and `_` between or after digits. What exceeds 28 decimals
or the digits that fit is rounded at the first digit left out, a five upwards; the rest must be
digits and `_` as well, but has no influence. Numbers in scientific notation shift the point. Where
a shift leads beyond 28 decimals, a numeral of a formula is refused, while a number given as a text
is rounded.
-/

namespace PlanLedger.Decimal

open Text (digit? readNat?)

/-! ## Writing -/

/-- The value `mantissa / 10 ^ scale` with exactly that many decimals. -/
def positional (mantissa scale : Nat) : String :=
  let whole := toString (mantissa / 10 ^ scale)
  if scale = 0 then whole
  else whole ++ "." ++ String.ofList (Text.paddedDigits (mantissa % 10 ^ scale) scale)

def signText (d : Decimal) : String := if d.negative then "-" else ""

/-- The number with exactly its decimals, a minus sign in front if it has one. -/
def toText (d : Decimal) : String := d.signText ++ positional d.mantissa d.scale

instance : ToString Decimal := ⟨toText⟩

/-- The most characters of a number as text, the sign not counted. -/
def maxTextLength : Nat := 32

/-- The number with zeros after it until there are `places` decimals, as far as its digits fit into
96 bits. A text may have more decimals than a number, but that of a zero has 28 at most, and there
is no text that is too long. -/
def toTextAt? (d : Decimal) (places : Nat) : Option String :=
  let room := if d.isZero then Nat.min places 28 - d.scale else Nat.min 28 (places - d.scale)
  let k := padding d.mantissa room
  let text := positional (d.mantissa * 10 ^ k) (d.scale + k)
  if text.length ≤ maxTextLength then some (d.signText ++ text) else none

/-! ## Reading -/

/-- What has been read of a number: its digits, its decimals, whether there was a digit and
whether there was a point. -/
structure Reading where
  mantissa : Nat := 0
  scale : Nat := 0
  hasDigit : Bool := false
  hasPoint : Bool := false

/-- The number read, if it had a digit. A zero has no sign. -/
def Reading.finish? (r : Reading) (negative : Bool) : Option Decimal :=
  if r.hasDigit then ofParts? (negative && r.mantissa != 0) r.mantissa r.scale else none

/-- The number read, rounded by the first digit left out. Digits that no longer fit after rounding
lose one more decimal. -/
def Reading.finishRounded? (r : Reading) (negative : Bool) (left : List Char) : Option Decimal :=
  if left.all fun c ↦ c == '_' || (digit? c).isSome then
    if (left.findSome? digit?).getD 0 < 5 then r.finish? negative
    else if r.mantissa + 1 < 2 ^ 96 then { r with mantissa := r.mantissa + 1 }.finish? negative
    else if r.scale = 0 then none
    else { r with mantissa := (r.mantissa + 5) / 10, scale := r.scale - 1 }.finish? negative
  else none

def readDigits? (negative : Bool) (r : Reading) : List Char → Option Decimal
  | [] => r.finish? negative
  | c :: rest =>
    if r.hasPoint ∧ r.scale = 28 then r.finishRounded? negative (c :: rest)
    else match digit? c with
      | some n =>
        let m := r.mantissa * 10 + n
        if m < 2 ^ 96 then
          readDigits? negative
            { r with
              mantissa := m, hasDigit := true, scale := if r.hasPoint then r.scale + 1 else 0 }
            rest
        else if r.hasPoint then r.finishRounded? negative (c :: rest)
        else none
      | none =>
        if c = '.' ∧ !r.hasPoint then readDigits? negative { r with hasPoint := true } rest
        else if c = '_' ∧ r.hasDigit then readDigits? negative r rest
        else none

def ofPositional? (s : List Char) : Option Decimal :=
  match s with
  | '-' :: rest => readDigits? true {} rest
  | '+' :: rest => readDigits? false {} rest
  | s => readDigits? false {} s

/-- Multiplies by a power of ten, then removes the zeros behind the point. -/
def shiftUp? (d : Decimal) (k : Nat) : Option Decimal := do
  let power ← ofParts? false (10 ^ k) 0
  let product ← d.mul? power
  some product.normalize

/-- Divides by a power of ten, all digits being kept. -/
def shiftDown? (d : Decimal) (k : Nat) : Option Decimal :=
  ofParts? d.negative d.mantissa (d.scale + k)

/-- Divides by a power of ten and rounds to 28 decimals, a five upwards. -/
def shiftDownRounded? (d : Decimal) (k : Nat) : Option Decimal :=
  let dropped := d.scale + k - 28
  ofParts? d.negative ((d.mantissa + 10 ^ dropped / 2) / 10 ^ dropped) (d.scale + k - dropped)

/-- Reads a number in scientific notation: the point of the base moves by the exponent, which
is at most 28 where it does not just shorten the decimals. Negative exponents are left to the given
division by a power of ten. -/
def ofScientific? (down? : Decimal → Nat → Option Decimal) (s : List Char) : Option Decimal := do
  let isMark (c : Char) : Bool := c == 'e' || c == 'E'
  let base := s.takeWhile (!isMark ·)
  match s.dropWhile (!isMark ·) with
  | [] => none
  | _ :: exponent =>
    let d ← ofPositional? base
    match exponent with
    | '-' :: digits =>
      let k ← readNat? (2 ^ 32) digits
      if k ≤ 28 then down? d k else none
    | digits =>
      let k ← readNat? (2 ^ 32) digits
      if k ≤ d.scale then ofParts? d.negative d.mantissa (d.scale - k)
      else if k ≤ 28 then d.shiftUp? k
      else none

/-- Reads a numeral of a formula: one with a mark of an exponent is in scientific notation, and none
of its digits may be lost by the exponent. -/
def ofNumeral? (s : String) : Option Decimal :=
  if s.toList.any fun c ↦ c == 'e' || c == 'E' then ofScientific? shiftDown? s.toList
  else ofPositional? s.toList

/-- Reads a number in positional or else in scientific notation, rounded to 28 decimals. -/
def ofText? (s : String) : Option Decimal :=
  match ofPositional? s.toList with
  | some d => some d
  | none => ofScientific? shiftDownRounded? s.toList

end PlanLedger.Decimal
