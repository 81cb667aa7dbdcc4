/-!
# Decimal digits

Whole numbers as text: reading a number below a limit and writing one with a least width.
-/

namespace PlanLedger.Text

/-- The value of a decimal digit. -/
def digit? (c : Char) : Option Nat :=
  if '0' ≤ c ∧ c ≤ '9' then some (c.toNat - '0'.toNat) else none

def digitsValue? (digits : List Char) : Option Nat :=
  digits.foldlM (fun n c ↦ (digit? c).map (n * 10 + ·)) 0

/-- Reads a whole number below a limit: one digit or more, after a plus sign if there is one. -/
def readNat? (limit : Nat) (s : List Char) : Option Nat :=
  let digits := match s with
    | '+' :: rest => rest
    | s => s
  if digits.isEmpty then none
  else (digitsValue? digits).filter (· < limit)

/-- The digits of `n`, with zeros in front up to a width. -/
def paddedDigits (n width : Nat) : List Char :=
  let digits := (toString n).toList
  List.replicate (width - digits.length) '0' ++ digits

end PlanLedger.Text
