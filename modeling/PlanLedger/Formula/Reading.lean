import PlanLedger.Formula.Error
import PlanLedger.Formula.Parser

/-!
# Formulas from texts

A text is read without the blanks at its ends. A fault is reported with the byte of the token at
which it was found, or with the length of the text if it was found at the end.
-/

namespace PlanLedger.Formula

/-- The tokens of a text and its length in bytes, without the blanks at its ends. -/
def lexemesOf (text : String) : List Lexeme × Nat :=
  let chars := Text.trim text.toList
  (tokens chars, byteLength chars)

/-- A parse error with the byte at which it is reported. -/
def ParseError.located (endOffset : Nat) (subFormula : Option String) : ParseError → FormulaError
  | fault offset f => .parse (offset.getD endOffset) subFormula f
  | arity f => .arity f

/-- Applies a reader to a text, which may be the body of a sub-formula. -/
def readWith {α : Type} (read : List Lexeme → Except ParseError α) (subFormula : Option String)
    (text : String) : Except FormulaError α :=
  let (ts, endOffset) := lexemesOf text
  match read ts with
  | .ok a => .ok a
  | .error e => .error (e.located endOffset subFormula)

def Expr.ofText (text : String) : Except FormulaError Expr := readWith parseExpr none text

def Statement.ofText (text : String) : Except FormulaError Statement :=
  readWith parseStatement none text

end PlanLedger.Formula
