import PlanLedger.Formula.Parser

/-!
# The grammar of formulas

The grammar says which sequences of tokens spell an expression or a formula, and which one. It says
so without a reading order: a rule joins the sequences of its parts, however the parts are found.
Operators of a level form a chain that groups from the left, a power groups from the right, and a
sign before an operand binds tighter than a power. Words of the language are taken whatever the case
of their letters.
-/

namespace PlanLedger.Formula

/-! ## References -/

/-- A token that stands for a value on a dimension. -/
inductive DerivesDimValue : Token → DimValue → Prop where
  | code {t code} : codeOf? t = some code → DerivesDimValue t (.code code)
  | loop {name} : isLoopName name = true → DerivesDimValue (.dollar name) .loop

/-- A dimension, an equality sign and a value. -/
inductive DerivesFilter : List Token → DimFilter → Prop where
  | mk {name t value} : DerivesDimValue t value →
      DerivesFilter [.word name, .symbol .equal, t] ⟨.ofName name, value⟩

/-- Filters that each follow a comma. -/
inductive DerivesMoreFilters : List Token → List DimFilter → Prop where
  | nil : DerivesMoreFilters [] []
  | cons {first filter more filters} : DerivesFilter first filter →
      DerivesMoreFilters more filters →
      DerivesMoreFilters (.symbol .comma :: (first ++ more)) (filter :: filters)

/-- Filters with commas between them; there may be none. -/
inductive DerivesFilters : List Token → List DimFilter → Prop where
  | nil : DerivesFilters [] []
  | cons {first filter more filters} : DerivesFilter first filter →
      DerivesMoreFilters more filters → DerivesFilters (first ++ more) (filter :: filters)

/-- A key figure after a dot, with a question mark before it where the reference is optional. -/
inductive DerivesKeyFigure : List Token → String → Bool → Prop where
  | required {t code} : codeOf? t = some code →
      DerivesKeyFigure [.symbol .dot, .symbol .leftBracket, t, .symbol .rightBracket] code false
  | optional {t code} : codeOf? t = some code →
      DerivesKeyFigure
        [.symbol .question, .symbol .dot, .symbol .leftBracket, t, .symbol .rightBracket] code true

/-- A reference in brackets: a key figure by itself, or filters and then the key figure. -/
inductive DerivesRef : List Token → CellRef → Prop where
  | bare {t code} : codeOf? t = some code →
      DerivesRef [.symbol .leftBracket, t, .symbol .rightBracket] (.bare code)
  | filtered {inner filters after code optional} : DerivesFilters inner filters →
      DerivesKeyFigure after code optional →
      DerivesRef (.symbol .leftBracket :: (inner ++ .symbol .rightBracket :: after))
        { filters, keyFigure := .code code, optional }

theorem DerivesRef.aggregate_eq_none {tokens : List Token} {r : CellRef} (h : DerivesRef tokens r) :
    r.aggregate = none := by
  cases h <;> rfl

/-- What an aggregate is taken of: a reference in brackets, or a key figure without brackets. -/
inductive DerivesSummand : List Token → CellRef → Prop where
  | ref {tokens ref} : DerivesRef tokens ref → DerivesSummand tokens ref
  | keyFigure {t code} : referenceNameOf? t = some code → DerivesSummand [t] (.bare code)

/-! ## Functions -/

theorem Function.ofName?_name (f : Function) : ofName? f.name = some f := by
  cases f with
  | eager f => cases f <;> decide +kernel
  | ifThenElse => decide +kernel
  | caseWhen => decide +kernel

/-! ## Expressions -/

/-- The kinds of phrases that expressions are made of. -/
inductive Phrase where
  /-- Operands with operators of a level between them. -/
  | level (l : Level)
  /-- An operand of a level. -/
  | operand (l : Level)
  | power
  | signed
  | primary
  /-- The arguments of a call. -/
  | args
  /-- Expressions with commas between them. -/
  | list
  /-- The arms of a case distinction after the first `WHEN`, up to its end. -/
  | arms

abbrev Phrase.Meaning : Phrase → Type
  | args => List Expr
  | list => List Expr
  | arms => List Expr
  | _ => Expr

abbrev Phrase.expr : Phrase := level .comparison

/-- The tokens that spell a phrase. -/
inductive Derives : (p : Phrase) → List Token → p.Meaning → Prop where
  | single {l tokens e} : Derives (.operand l) tokens e → Derives (.level l) tokens e
  | chain {l left right s op a b} : Derives (.level l) left a → l.op? s = some op →
      Derives (.operand l) right b →
      Derives (.level l) (left ++ .symbol s :: right) (.binary op a b)
  | sum {tokens e} : Derives (.level .sum) tokens e → Derives (.operand .comparison) tokens e
  | product {tokens e} : Derives (.level .product) tokens e → Derives (.operand .sum) tokens e
  | power {tokens e} : Derives .power tokens e → Derives (.operand .product) tokens e
  | base {tokens e} : Derives .signed tokens e → Derives .power tokens e
  | raise {base exponent a b} : Derives .signed base a → Derives .power exponent b →
      Derives .power (base ++ .symbol .caret :: exponent) (.binary (.arithmetic .power) a b)
  | unsigned {tokens e} : Derives .primary tokens e → Derives .signed tokens e
  | negate {tokens e} : Derives .signed tokens e →
      Derives .signed (.symbol .minus :: tokens) (.negate e)
  /-- A plus sign leaves no trace. -/
  | plus {tokens e} : Derives .signed tokens e → Derives .signed (.symbol .plus :: tokens) e
  | number {text value} : Decimal.ofNumeral? text = some value →
      Derives .primary [.number text] (.number value)
  | parens {tokens e} : Derives .expr tokens e →
      Derives .primary (.symbol .leftParen :: (tokens ++ [.symbol .rightParen])) e
  | subFormula {name} : isLoopName name = false →
      Derives .primary [.dollar name] (.subFormula name)
  | constant {name} : isConstantName name = true → (∀ k : Keyword, name ≠ k.text) →
      Derives .primary [.word name] (.constant name)
  | call {word f tokens args} : Function.ofName? word = some f → f ≠ .caseWhen →
      Derives .args tokens args → f.arity.admits args.length = true →
      Derives .primary (.word word :: .symbol .leftParen :: (tokens ++ [.symbol .rightParen]))
        (.call f.name args)
  | caseWhen {caseToken whenToken tokens args} : isKeyword .caseWord caseToken = true →
      isKeyword .whenWord whenToken = true → Derives .arms tokens args →
      Derives .primary (caseToken :: whenToken :: tokens) (.call Function.caseWhen.name args)
  | reference {word t name tokens filters} : word.toUpper = "REF" →
      referenceNameOf? t = some name → DerivesMoreFilters tokens filters →
      Derives .primary
        (.word word :: .symbol .leftParen :: t :: (tokens ++ [.symbol .rightParen]))
        (.reference ⟨name, filters⟩)
  | cell {tokens ref} : DerivesRef tokens ref → Derives .primary tokens (.cell ref)
  | aggregate {word kind tokens ref} : Aggregate.ofName? word = some kind →
      DerivesSummand tokens ref →
      Derives .primary (.word word :: .symbol .colon :: tokens)
        (.cell { ref with aggregate := some kind })
  | noArgs : Derives .args [] []
  | someArgs {tokens args} : Derives .list tokens args → Derives .args tokens args
  | one {tokens e} : Derives .expr tokens e → Derives .list tokens [e]
  | more {first e tokens rest} : Derives .expr first e → Derives .list tokens rest →
      Derives .list (first ++ .symbol .comma :: tokens) (e :: rest)
  | lastArm {condition thenToken value endToken a b} : Derives .expr condition a →
      isKeyword .thenWord thenToken = true → Derives .expr value b →
      isKeyword .endWord endToken = true →
      Derives .arms (condition ++ thenToken :: (value ++ [endToken])) [a, b]
  | elseArm {condition thenToken value elseToken otherwise endToken a b c} :
      Derives .expr condition a → isKeyword .thenWord thenToken = true → Derives .expr value b →
      isKeyword .elseWord elseToken = true → Derives .expr otherwise c →
      isKeyword .endWord endToken = true →
      Derives .arms
        (condition ++ thenToken :: (value ++ elseToken :: (otherwise ++ [endToken]))) [a, b, c]
  | moreArms {condition thenToken value whenToken tokens a b rest} : Derives .expr condition a →
      isKeyword .thenWord thenToken = true → Derives .expr value b →
      isKeyword .whenWord whenToken = true → Derives .arms tokens rest →
      Derives .arms (condition ++ thenToken :: (value ++ whenToken :: tokens)) (a :: b :: rest)

/-- A formula: a reference in brackets, an equality sign and an expression. -/
inductive DerivesStatement : List Token → Statement → Prop where
  | mk {target ref tokens e} : DerivesRef target ref → Derives .expr tokens e →
      DerivesStatement (target ++ .symbol .equal :: tokens) ⟨ref, e⟩

end PlanLedger.Formula
