/-!
# The functions of formulas

Formulas may call nine functions and no others. Each has a name, found whatever the case of its
letters, and a number of arguments. Two of them choose which arguments they need; the others work on
the values of all arguments.
-/

namespace PlanLedger.Formula

/-- How many arguments a function takes. -/
structure Arity where
  /-- The least number of arguments. -/
  least : Nat
  /-- The greatest number of arguments, if there is one. -/
  most : Option Nat := none
deriving DecidableEq

namespace Arity

def admits (a : Arity) (n : Nat) : Bool :=
  a.least ≤ n && match a.most with
    | some most => n ≤ most
    | none => true

def describe (a : Arity) : String :=
  match a.most with
  | some most =>
    if most = a.least then toString most else toString a.least ++ ".." ++ toString most
  | none => "at least " ++ toString a.least

end Arity

/-- A function of the values of its arguments. -/
inductive EagerFunction where
  | abs
  | and
  | max
  | min
  | not
  | or
  | round
deriving DecidableEq

/-- A function that formulas may call. -/
inductive Function where
  | eager (f : EagerFunction)
  | ifThenElse
  | caseWhen
deriving DecidableEq

def EagerFunction.name : EagerFunction → String
  | abs => "ABS"
  | and => "AND"
  | max => "MAX"
  | min => "MIN"
  | not => "NOT"
  | or => "OR"
  | round => "ROUND"

/-- How many arguments a function of values takes. -/
def EagerFunction.arity : EagerFunction → Arity
  | abs => ⟨1, some 1⟩
  | and => ⟨1, none⟩
  | max => ⟨1, none⟩
  | min => ⟨1, none⟩
  | not => ⟨1, some 1⟩
  | or => ⟨1, none⟩
  | round => ⟨1, some 2⟩

namespace Function

/-- All functions in the order of their names. -/
def all : List Function :=
  [eager .abs, eager .and, caseWhen, ifThenElse, eager .max, eager .min, eager .not, eager .or,
    eager .round]

def name : Function → String
  | eager f => f.name
  | ifThenElse => "IF"
  | caseWhen => "CASE"

def ofCapitals? (s : String) : Option Function := all.find? fun f ↦ f.name == s

/-- The function of a name, whatever the case of its letters. -/
def ofName? (s : String) : Option Function := ofCapitals? s.toUpper

/-- How many arguments a function takes. A case distinction has pairs of a condition and a value,
and a last value that may be left out. -/
def arity : Function → Arity
  | eager f => f.arity
  | ifThenElse => ⟨3, some 3⟩
  | caseWhen => ⟨2, none⟩

end Function

/-- A call with the wrong number of arguments. -/
structure ArityFault where
  function : Function
  actual : Nat
deriving DecidableEq

def ArityFault.message (e : ArityFault) : String :=
  "Wrong number of arguments for " ++ e.function.name ++ ": expected " ++
    e.function.arity.describe ++ ", got " ++ toString e.actual

/-- Checks the number of arguments of a call. -/
def Function.checkArity (f : Function) (n : Nat) : Except ArityFault Unit :=
  if f.arity.admits n then .ok () else .error ⟨f, n⟩

end PlanLedger.Formula
