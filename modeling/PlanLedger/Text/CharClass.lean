import PlanLedger.Text.Alphabetic
import PlanLedger.Text.Numeric

/-!
# Classes of characters

Formulas may use letters and numerals of all scripts in words, and all blanks between words. ASCII
is decided directly and the rest by the tables of ranges.
-/

namespace PlanLedger.Text

/-- Whether a code point lies in one of a list of ranges. -/
def inRanges (ranges : List (Nat × Nat)) (n : Nat) : Bool :=
  ranges.any fun r ↦ r.1 ≤ n && n ≤ r.2

/-- Whether a character is a letter of any script. -/
def isAlphabetic (c : Char) : Bool :=
  if c.toNat < 128 then c.isAlpha else inRanges alphabeticRanges c.toNat

/-- Whether a character is a digit or numeral of any script. -/
def isNumeric (c : Char) : Bool :=
  if c.toNat < 128 then c.isDigit else inRanges numericRanges c.toNat

/-- Whether a character is a letter, digit or numeral. -/
def isAlphanumeric (c : Char) : Bool := isAlphabetic c || isNumeric c

/-- Whether a character is a blank: the characters with the property White_Space. -/
def isBlank (c : Char) : Bool :=
  let n := c.toNat
  (9 ≤ n && n ≤ 13) || n == 0x20 || n == 0x85 || n == 0xa0 || n == 0x1680 ||
    (0x2000 ≤ n && n ≤ 0x200a) || n == 0x2028 || n == 0x2029 || n == 0x202f || n == 0x205f ||
    n == 0x3000

/-- A text without the blanks at its beginning. -/
def trimLeft (s : List Char) : List Char := s.dropWhile isBlank

def trim (s : List Char) : List Char := (trimLeft (trimLeft s).reverse).reverse

end PlanLedger.Text
