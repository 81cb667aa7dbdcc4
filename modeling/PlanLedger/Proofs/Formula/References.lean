import PlanLedger.Proofs.Formula.Grammar
import PlanLedger.Proofs.Refusal

/-!
# Reading references

The readers of references need no look-ahead beyond the end of a list of filters, so each of them
comes with two facts: what it takes up is spelled by the grammar, and what the grammar spells it
takes up, whatever follows.
-/

namespace PlanLedger.Formula

/-- The tokens from the beginning of a list up to its rest have a property. -/
def Took (ts rest : List Lexeme) (P : List Token → Prop) : Prop :=
  ∃ used, ts = used ++ rest ∧ P (used.map Lexeme.token)

/-- A reader gives a value and leaves a rest. -/
def Gives {α : Type} {ts : List Lexeme} (result : Except ParseError (Parsed α ts)) (a : α)
    (rest : List Lexeme) : Prop :=
  ∃ p, result = .ok p ∧ p.value = a ∧ p.rest = rest

/-- A reader that may read nothing gives a value and leaves a rest. -/
def GivesMore {α : Type} {ts : List Lexeme} (result : Except ParseError (ParsedMore α ts)) (a : α)
    (rest : List Lexeme) : Prop :=
  ∃ p, result = .ok p ∧ p.value = a ∧ p.rest = rest

theorem Gives.eq_ok {α : Type} {ts rest : List Lexeme} {result : Except ParseError (Parsed α ts)}
    {a : α} (h : Gives result a rest) : ∃ h, result = .ok ⟨a, rest, h⟩ := by
  obtain ⟨⟨_, _, h⟩, hresult, rfl, rfl⟩ := h
  exact ⟨h, hresult⟩

theorem GivesMore.eq_ok {α : Type} {ts rest : List Lexeme}
    {result : Except ParseError (ParsedMore α ts)} {a : α} (h : GivesMore result a rest) :
    ∃ h, result = .ok ⟨a, rest, h⟩ := by
  obtain ⟨⟨_, _, h⟩, hresult, rfl, rfl⟩ := h
  exact ⟨h, hresult⟩

section

variable {ts used rest : List Lexeme} {t : Lexeme} {code : String} {filters : List DimFilter}

/-! ## Single tokens -/

theorem failAt_ne_ok {α : Type} {fault : SyntaxFault} {a : α} : failAt ts fault ≠ .ok a := nofun

theorem unexpectedAt_ne_ok {α : Type} {place : Place} {a : α} : unexpectedAt ts place ≠ .ok a := by
  unfold unexpectedAt
  split <;> exact failAt_ne_ok

theorem startsWith_eq_true {s : Symbol} (h : startsWith s ts = true) :
    ∃ o rest, ts = ⟨.symbol s, o⟩ :: rest := by
  cases ts with
  | nil => cases h
  | cons t rest => exact ⟨t.offset, rest, by rw [← beq_iff_eq.mp h]⟩

theorem expectSymbol_eq_ok {s : Symbol} {u h} (hp : expectSymbol s ts = .ok ⟨u, rest, h⟩) :
    ∃ o, ts = ⟨.symbol s, o⟩ :: rest := by
  unfold expectSymbol at hp
  split at hp
  · rename_i t rest
    split at hp
    · rename_i ht
      cases hp
      exact ⟨t.offset, by rw [← ht]⟩
    · exact absurd hp unexpectedAt_ne_ok
  · exact absurd hp unexpectedAt_ne_ok

theorem expectSymbol_cons (s : Symbol) (o : Nat) (rest : List Lexeme) :
    ∃ h, expectSymbol s (⟨.symbol s, o⟩ :: rest) = .ok ⟨(), rest, h⟩ := by
  simp [expectSymbol]

theorem expectKeyword_eq_ok {k : Keyword} {u h} (hp : expectKeyword k ts = .ok ⟨u, rest, h⟩) :
    ∃ t, isKeyword k t.token = true ∧ ts = t :: rest := by
  unfold expectKeyword at hp
  split at hp
  · rename_i t rest
    split at hp
    · rename_i ht
      cases hp
      exact ⟨t, ht, rfl⟩
    · exact absurd hp unexpectedAt_ne_ok
  · exact absurd hp unexpectedAt_ne_ok

theorem expectKeyword_cons {k : Keyword} (ht : isKeyword k t.token = true) (rest : List Lexeme) :
    ∃ h, expectKeyword k (t :: rest) = .ok ⟨(), rest, h⟩ := by
  simp [expectKeyword, ht]

/-! ## Filters -/

theorem parseDimValue_eq_ok {v : DimValue} {h} (hp : parseDimValue ts = .ok ⟨v, rest, h⟩) :
    ∃ t, DerivesDimValue t.token v ∧ ts = t :: rest := by
  unfold parseDimValue at hp
  split at hp
  · rename_i t rest
    split at hp
    · rename_i hcode
      cases hp
      exact ⟨t, .code hcode, rfl⟩
    · rename_i hname
      split at hp
      · rename_i hloop
        cases hp
        exact ⟨t, by rw [hname]; exact .loop hloop, rfl⟩
      · exact absurd hp failAt_ne_ok
    · exact absurd hp unexpectedAt_ne_ok
  · exact absurd hp unexpectedAt_ne_ok

theorem parseDimValue_cons {v : DimValue} (hv : DerivesDimValue t.token v) (rest : List Lexeme) :
    ∃ h, parseDimValue (t :: rest) = .ok ⟨v, rest, h⟩ := by
  obtain ⟨token, o⟩ := t
  cases hv with
  | code hcode => simp [parseDimValue, hcode]
  | loop hloop => simp [parseDimValue, codeOf?, hloop]

theorem parseDimFilter_eq_ok {f : DimFilter} {h} (hp : parseDimFilter ts = .ok ⟨f, rest, h⟩) :
    Took ts rest (DerivesFilter · f) := by
  unfold parseDimFilter at hp
  split at hp
  · rename_i name o more
    obtain ⟨⟨_, rest₁, h₁⟩, hequal, hp⟩ := bind_eq_ok.mp hp
    obtain ⟨⟨value, rest₂, h₂⟩, hvalue, hp⟩ := bind_eq_ok.mp hp
    cases hp
    obtain ⟨o', rfl⟩ := expectSymbol_eq_ok hequal
    obtain ⟨t, ht, rfl⟩ := parseDimValue_eq_ok hvalue
    exact ⟨[⟨.word name, o⟩, ⟨.symbol .equal, o'⟩, t], rfl, .mk ht⟩
  · exact absurd hp unexpectedAt_ne_ok

theorem parseDimFilter_append {f : DimFilter} (hf : DerivesFilter (used.map Lexeme.token) f)
    (rest : List Lexeme) : Gives (parseDimFilter (used ++ rest)) f rest := by
  generalize htokens : used.map Lexeme.token = tokens at hf
  cases hf with
  | mk hvalue =>
    simp only [List.map_eq_cons_iff, List.map_eq_nil_iff] at htokens
    obtain ⟨⟨_, _⟩, _, rfl, rfl, ⟨_, o⟩, _, rfl, rfl, t, _, rfl, rfl, rfl⟩ := htokens
    obtain ⟨_, hequal⟩ := expectSymbol_cons .equal o (t :: rest)
    obtain ⟨_, hparse⟩ := parseDimValue_cons hvalue rest
    simp only [List.cons_append, List.nil_append, parseDimFilter, hequal, hparse, ok_bind]
    exact ⟨_, rfl, rfl, rfl⟩

theorem parseMoreFilters_eq_ok {h} (hp : parseMoreFilters ts = .ok ⟨filters, rest, h⟩) :
    Took ts rest (DerivesMoreFilters · filters) := by
  fun_induction parseMoreFilters ts generalizing filters rest with
  | case1 o more ih =>
    obtain ⟨⟨f, rest₁, h₁⟩, hf, hp⟩ := bind_eq_ok.mp hp
    obtain ⟨⟨filters, rest₂, h₂⟩, hfilters, hp⟩ := bind_eq_ok.mp hp
    cases hp
    obtain ⟨used₁, rfl, hused₁⟩ := parseDimFilter_eq_ok hf
    obtain ⟨used₂, rfl, hused₂⟩ := ih _ h₁ hfilters
    exact ⟨⟨.symbol .comma, o⟩ :: (used₁ ++ used₂), by simp, by simpa using .cons hused₁ hused₂⟩
  | case2 =>
    cases hp
    exact ⟨[], rfl, .nil⟩

theorem parseMoreFilters_append (hfilters : DerivesMoreFilters (used.map Lexeme.token) filters)
    (rest : List Lexeme) (hrest : startsWith .comma rest = false) :
    GivesMore (parseMoreFilters (used ++ rest)) filters rest := by
  generalize htokens : used.map Lexeme.token = tokens at hfilters
  induction hfilters generalizing used with
  | nil =>
    obtain rfl := List.map_eq_nil_iff.mp htokens
    unfold parseMoreFilters
    dsimp only [List.nil_append]
    split
    · cases hrest
    · exact ⟨_, rfl, rfl, rfl⟩
  | cons hf _ ih =>
    simp only [List.map_eq_cons_iff, List.map_eq_append_iff] at htokens
    obtain ⟨⟨_, o⟩, _, rfl, rfl, used₁, used₂, rfl, rfl, htokens⟩ := htokens
    obtain ⟨_, hfilter⟩ := (parseDimFilter_append hf (used₂ ++ rest)).eq_ok
    obtain ⟨_, hmore⟩ := (ih htokens).eq_ok
    rw [List.cons_append, List.append_assoc, parseMoreFilters]
    simp only [hfilter, hmore, ok_bind]
    exact ⟨_, rfl, rfl, rfl⟩

/-! ## Cell references -/

theorem parseKeyFigureCode_eq_ok {h} (hp : parseKeyFigureCode ts = .ok ⟨code, rest, h⟩) :
    ∃ t, codeOf? t.token = some code ∧ ts = t :: rest := by
  unfold parseKeyFigureCode at hp
  split at hp
  · rename_i t rest
    split at hp
    · rename_i hcode
      cases hp
      exact ⟨t, hcode, rfl⟩
    · exact absurd hp failAt_ne_ok
    · exact absurd hp failAt_ne_ok
  · exact absurd hp failAt_ne_ok

theorem parseKeyFigureCode_cons (ht : codeOf? t.token = some code) (rest : List Lexeme) :
    ∃ h, parseKeyFigureCode (t :: rest) = .ok ⟨code, rest, h⟩ := by
  simp [parseKeyFigureCode, ht]

theorem parseKeyFigure_eq_ok {ref : CellRef} {h}
    (hp : parseKeyFigure filters ts = .ok ⟨ref, rest, h⟩) : ∃ code optional,
      Took ts rest (DerivesKeyFigure · code optional) ∧
        ref = { filters, keyFigure := .code code, optional } := by
  unfold parseKeyFigure at hp
  extract_lets optional after h₀ at hp
  split at hp
  · rename_i hdot
    obtain ⟨o, more, hafter⟩ := startsWith_eq_true hdot
    obtain ⟨⟨_, rest₁, h₁⟩, hopen, hp⟩ := bind_eq_ok.mp hp
    obtain ⟨⟨code, rest₂, h₂⟩, hcode, hp⟩ := bind_eq_ok.mp hp
    obtain ⟨⟨_, rest₃, h₃⟩, hclose, hp⟩ := bind_eq_ok.mp hp
    cases hp
    obtain ⟨o₁, hopen⟩ := expectSymbol_eq_ok hopen
    obtain ⟨t, ht, rfl⟩ := parseKeyFigureCode_eq_ok hcode
    obtain ⟨o₃, rfl⟩ := expectSymbol_eq_ok hclose
    have hkey : after = ⟨.symbol .dot, o⟩ :: ⟨.symbol .leftBracket, o₁⟩ :: t ::
        ⟨.symbol .rightBracket, o₃⟩ :: rest := by
      rw [hafter, List.tail_cons] at hopen
      rw [hafter, hopen]
    refine ⟨code, optional, ?_, rfl⟩
    cases hmark : startsWith .question ts with
    | true =>
      obtain ⟨o₀, more, rfl⟩ := startsWith_eq_true hmark
      exact ⟨[⟨.symbol .question, o₀⟩, ⟨.symbol .dot, o⟩, ⟨.symbol .leftBracket, o₁⟩, t,
        ⟨.symbol .rightBracket, o₃⟩], congrArg (_ :: ·) hkey, .optional ht⟩
    | false =>
      have hsame : after = ts := by simp only [after, optional, hmark, Bool.false_eq_true, if_false]
      have hoptional : optional = false := hmark
      rw [hoptional]
      exact ⟨[⟨.symbol .dot, o⟩, ⟨.symbol .leftBracket, o₁⟩, t, ⟨.symbol .rightBracket, o₃⟩],
        hsame.symm.trans hkey, .required ht⟩
  · exact absurd hp unexpectedAt_ne_ok

theorem parseKeyFigure_append (filters : List DimFilter) {optional : Bool}
    (hkey : DerivesKeyFigure (used.map Lexeme.token) code optional) (rest : List Lexeme) :
    Gives (parseKeyFigure filters (used ++ rest))
      { filters, keyFigure := .code code, optional } rest := by
  generalize htokens : used.map Lexeme.token = tokens at hkey
  cases hkey with
  | required hcode =>
    simp only [List.map_eq_cons_iff, List.map_eq_nil_iff] at htokens
    obtain ⟨⟨_, o⟩, _, rfl, rfl, ⟨_, o₁⟩, _, rfl, rfl, t, _, rfl, rfl, ⟨_, o₃⟩, _, rfl, rfl, rfl⟩ :=
      htokens
    obtain ⟨_, hopen⟩ := expectSymbol_cons .leftBracket o₁
      (t :: ⟨.symbol .rightBracket, o₃⟩ :: rest)
    obtain ⟨_, hread⟩ := parseKeyFigureCode_cons hcode (⟨.symbol .rightBracket, o₃⟩ :: rest)
    obtain ⟨_, hclose⟩ := expectSymbol_cons .rightBracket o₃ rest
    simp only [List.cons_append, List.nil_append] at hopen hread ⊢
    simp only [parseKeyFigure, startsWith, beq_iff_eq, Token.symbol.injEq, reduceCtorEq,
      ↓reduceIte, BEq.rfl, ↓dreduceIte, List.tail_cons, hopen, hread, hclose, bind_pure_comp,
      ok_bind]
    exact ⟨_, rfl, rfl, rfl⟩
  | optional hcode =>
    simp only [List.map_eq_cons_iff, List.map_eq_nil_iff] at htokens
    obtain ⟨⟨_, o₀⟩, _, rfl, rfl, ⟨_, o⟩, _, rfl, rfl, ⟨_, o₁⟩, _, rfl, rfl, t, _, rfl, rfl,
      ⟨_, o₃⟩, _, rfl, rfl, rfl⟩ := htokens
    obtain ⟨_, hopen⟩ := expectSymbol_cons .leftBracket o₁
      (t :: ⟨.symbol .rightBracket, o₃⟩ :: rest)
    obtain ⟨_, hread⟩ := parseKeyFigureCode_cons hcode (⟨.symbol .rightBracket, o₃⟩ :: rest)
    obtain ⟨_, hclose⟩ := expectSymbol_cons .rightBracket o₃ rest
    simp only [List.cons_append, List.nil_append, parseKeyFigure, startsWith, BEq.rfl, ↓reduceIte,
      ↓dreduceIte, List.tail_cons, hopen, hread, hclose, bind_pure_comp, ok_bind]
    exact ⟨_, rfl, rfl, rfl⟩

theorem parseBare_eq_ok {ref : CellRef} {h} (hp : parseBare code ts = .ok ⟨ref, rest, h⟩) :
    ∃ o, ts = ⟨.symbol .rightBracket, o⟩ :: rest ∧ ref = .bare code := by
  obtain ⟨⟨_, rest₁, h₁⟩, hclose, hp⟩ := bind_eq_ok.mp hp
  cases hp
  obtain ⟨o, rfl⟩ := expectSymbol_eq_ok hclose
  exact ⟨o, rfl, rfl⟩

theorem parseBare_cons (code : String) (o : Nat) (rest : List Lexeme) :
    ∃ h, parseBare code (⟨.symbol .rightBracket, o⟩ :: rest) = .ok ⟨.bare code, rest, h⟩ := by
  obtain ⟨h, hclose⟩ := expectSymbol_cons .rightBracket o rest
  exact ⟨h, by rw [parseBare, hclose, ok_bind]; rfl⟩

/-- The tokens of a reference after its opening bracket. -/
def DerivesInBrackets (tokens : List Token) (ref : CellRef) : Prop :=
  DerivesRef (.symbol .leftBracket :: tokens) ref

theorem parseFilters_eq_ok {name : String} {ref : CellRef} {h}
    (hp : parseFilters name ts = .ok ⟨ref, rest, h⟩) :
    Took ts rest fun tokens ↦ DerivesInBrackets (.word name :: .symbol .equal :: tokens) ref := by
  obtain ⟨⟨value, rest₁, h₁⟩, hvalue, hp⟩ := bind_eq_ok.mp hp
  obtain ⟨⟨filters, rest₂, h₂⟩, hmore, hp⟩ := bind_eq_ok.mp hp
  obtain ⟨⟨_, rest₃, h₃⟩, hclose, hp⟩ := bind_eq_ok.mp hp
  obtain ⟨⟨ref, rest₄, h₄⟩, hkey, hp⟩ := bind_eq_ok.mp hp
  cases hp
  obtain ⟨t, ht, rfl⟩ := parseDimValue_eq_ok hvalue
  obtain ⟨used, rfl, hused⟩ := parseMoreFilters_eq_ok hmore
  obtain ⟨o, rfl⟩ := expectSymbol_eq_ok hclose
  obtain ⟨code, optional, ⟨after, rfl, hafter⟩, rfl⟩ := parseKeyFigure_eq_ok hkey
  refine ⟨t :: (used ++ ⟨.symbol .rightBracket, o⟩ :: after), by simp, ?_⟩
  have hfirst : DerivesFilter [.word name, .symbol .equal, t.token] ⟨.ofName name, value⟩ := .mk ht
  simpa [DerivesInBrackets] using DerivesRef.filtered (.cons hfirst hused) hafter

theorem parseFilters_append (name : String) {value : DimValue} {more after : List Lexeme}
    {optional : Bool} (hvalue : DerivesDimValue t.token value)
    (hmore : DerivesMoreFilters (more.map Lexeme.token) filters) (o : Nat)
    (hafter : DerivesKeyFigure (after.map Lexeme.token) code optional) (rest : List Lexeme) :
    Gives (parseFilters name (t :: (more ++ ⟨.symbol .rightBracket, o⟩ :: (after ++ rest))))
      { filters := ⟨.ofName name, value⟩ :: filters, keyFigure := .code code, optional } rest := by
  obtain ⟨_, hread⟩ := parseDimValue_cons hvalue
    (more ++ ⟨.symbol .rightBracket, o⟩ :: (after ++ rest))
  obtain ⟨_, hfilters⟩ := (parseMoreFilters_append hmore
    (⟨.symbol .rightBracket, o⟩ :: (after ++ rest)) rfl).eq_ok
  obtain ⟨_, hclose⟩ := expectSymbol_cons .rightBracket o (after ++ rest)
  obtain ⟨_, hkey⟩ := (parseKeyFigure_append (⟨.ofName name, value⟩ :: filters)
    hafter rest).eq_ok
  simp only [parseFilters, hread, hfilters, hclose, hkey, ok_bind]
  exact ⟨_, rfl, rfl, rfl⟩

theorem parseInBrackets_eq_ok {ref : CellRef} {h}
    (hp : parseInBrackets ts = .ok ⟨ref, rest, h⟩) : Took ts rest (DerivesInBrackets · ref) := by
  unfold parseInBrackets at hp
  split at hp
  · rename_i o more
    obtain ⟨⟨ref, rest₁, h₁⟩, hkey, hp⟩ := bind_eq_ok.mp hp
    cases hp
    obtain ⟨code, optional, ⟨after, rfl, hafter⟩, rfl⟩ := parseKeyFigure_eq_ok hkey
    exact ⟨⟨.symbol .rightBracket, o⟩ :: after, rfl, .filtered .nil hafter⟩
  · rename_i name o o' more
    cases hp
    exact ⟨[⟨.word name, o⟩, ⟨.symbol .rightBracket, o'⟩], rfl, .bare rfl⟩
  · rename_i name o o' more
    obtain ⟨⟨ref, rest₁, h₁⟩, hfilters, hp⟩ := bind_eq_ok.mp hp
    cases hp
    obtain ⟨used, rfl, hused⟩ := parseFilters_eq_ok hfilters
    exact ⟨⟨.word name, o⟩ :: ⟨.symbol .equal, o'⟩ :: used, rfl, hused⟩
  · exact absurd hp unexpectedAt_ne_ok
  · rename_i code o more
    obtain ⟨⟨ref, rest₁, h₁⟩, hbare, hp⟩ := bind_eq_ok.mp hp
    cases hp
    obtain ⟨o', rfl, rfl⟩ := parseBare_eq_ok hbare
    exact ⟨[⟨.number code, o⟩, ⟨.symbol .rightBracket, o'⟩], rfl, .bare rfl⟩
  · rename_i code o more
    obtain ⟨⟨ref, rest₁, h₁⟩, hbare, hp⟩ := bind_eq_ok.mp hp
    cases hp
    obtain ⟨o', rfl, rfl⟩ := parseBare_eq_ok hbare
    exact ⟨[⟨.quoted code, o⟩, ⟨.symbol .rightBracket, o'⟩], rfl, .bare rfl⟩
  · exact absurd hp unexpectedAt_ne_ok

theorem parseInBrackets_code (ht : codeOf? t.token = some code) (o : Nat)
    (rest : List Lexeme) :
    Gives (parseInBrackets (t :: ⟨.symbol .rightBracket, o⟩ :: rest)) (.bare code) rest := by
  obtain ⟨_, hbare⟩ := parseBare_cons code o rest
  obtain ⟨token, o'⟩ := t
  cases token with
  | word name =>
    cases ht
    exact ⟨_, rfl, rfl, rfl⟩
  | number text =>
    cases ht
    simp only [parseInBrackets, hbare, ok_bind]
    exact ⟨_, rfl, rfl, rfl⟩
  | quoted text =>
    cases ht
    simp only [parseInBrackets, hbare, ok_bind]
    exact ⟨_, rfl, rfl, rfl⟩
  | _ => cases ht

theorem parseInBrackets_append {ref : CellRef}
    (href : DerivesInBrackets (used.map Lexeme.token) ref) (rest : List Lexeme) :
    Gives (parseInBrackets (used ++ rest)) ref rest := by
  rw [DerivesInBrackets] at href
  generalize htokens : Token.symbol .leftBracket :: used.map Lexeme.token = tokens at href
  cases href with
  | bare hcode =>
    simp only [List.cons.injEq, true_and, List.map_eq_cons_iff, List.map_eq_nil_iff] at htokens
    obtain ⟨t, _, rfl, rfl, ⟨_, o⟩, _, rfl, rfl, rfl⟩ := htokens
    exact parseInBrackets_code hcode o rest
  | filtered hfilters hafter =>
    simp only [List.cons.injEq, true_and, List.map_eq_append_iff, List.map_eq_cons_iff] at htokens
    obtain ⟨inner, _, rfl, rfl, ⟨_, o⟩, after, rfl, rfl, rfl⟩ := htokens
    generalize hinner : inner.map Lexeme.token = tokens at hfilters
    cases hfilters with
    | nil =>
      obtain rfl := List.map_eq_nil_iff.mp hinner
      obtain ⟨_, hkey⟩ := (parseKeyFigure_append [] hafter rest).eq_ok
      simp only [List.nil_append, List.cons_append, parseInBrackets, hkey, ok_bind]
      exact ⟨_, rfl, rfl, rfl⟩
    | cons hfirst hmore =>
      obtain @⟨name, _, _, hvalue⟩ := hfirst
      simp only [List.cons_append, List.nil_append, List.map_eq_cons_iff] at hinner
      obtain ⟨⟨_, o₁⟩, _, rfl, rfl, ⟨_, o₂⟩, _, rfl, rfl, t, more, rfl, rfl, rfl⟩ := hinner
      obtain ⟨_, hread⟩ := (parseFilters_append name hvalue hmore o hafter rest).eq_ok
      rw [List.append_assoc]
      dsimp only [List.cons_append]
      simp only [parseInBrackets, hread, ok_bind]
      exact ⟨_, rfl, rfl, rfl⟩

theorem parseCellRef_eq_ok {ref : CellRef} {h} (hp : parseCellRef ts = .ok ⟨ref, rest, h⟩) :
    Took ts rest (DerivesRef · ref) := by
  obtain ⟨⟨_, rest₁, h₁⟩, hopen, hp⟩ := bind_eq_ok.mp hp
  obtain ⟨⟨ref, rest₂, h₂⟩, hinside, hp⟩ := bind_eq_ok.mp hp
  cases hp
  obtain ⟨o, rfl⟩ := expectSymbol_eq_ok hopen
  obtain ⟨used, rfl, hused⟩ := parseInBrackets_eq_ok hinside
  exact ⟨⟨.symbol .leftBracket, o⟩ :: used, rfl, hused⟩

theorem DerivesRef.exists_cons {tokens : List Token} {ref : CellRef} (h : DerivesRef tokens ref) :
    ∃ inside, tokens = .symbol .leftBracket :: inside := by
  cases h <;> exact ⟨_, rfl⟩

theorem parseCellRef_append {ref : CellRef} (href : DerivesRef (used.map Lexeme.token) ref)
    (rest : List Lexeme) : Gives (parseCellRef (used ++ rest)) ref rest := by
  obtain ⟨inside, hinside⟩ := href.exists_cons
  obtain ⟨⟨_, o⟩, used, rfl, rfl, rfl⟩ := List.map_eq_cons_iff.mp hinside
  obtain ⟨_, hopen⟩ := expectSymbol_cons .leftBracket o (used ++ rest)
  obtain ⟨_, hread⟩ := (parseInBrackets_append href rest).eq_ok
  rw [List.cons_append]
  simp only [parseCellRef, hopen, hread, ok_bind]
  exact ⟨_, rfl, rfl, rfl⟩

/-! ## Aggregates and look-ups -/

theorem parseAggregate_eq_ok {kind : Aggregate} {e : Expr} {h}
    (hp : parseAggregate kind ts = .ok ⟨e, rest, h⟩) : ∃ ref,
      Took ts rest (DerivesSummand · ref) ∧ e = .cell { ref with aggregate := some kind } := by
  unfold parseAggregate at hp
  split at hp
  · obtain ⟨⟨ref, rest₁, h₁⟩, href, hp⟩ := bind_eq_ok.mp hp
    cases hp
    obtain ⟨used, hts, hused⟩ := parseCellRef_eq_ok href
    exact ⟨ref, ⟨used, hts, .ref hused⟩, rfl⟩
  · rename_i code o more
    cases hp
    exact ⟨.bare code, ⟨[⟨.word code, o⟩], rfl, .keyFigure rfl⟩, rfl⟩
  · rename_i code o more
    cases hp
    exact ⟨.bare code, ⟨[⟨.quoted code, o⟩], rfl, .keyFigure rfl⟩, rfl⟩
  · exact absurd hp unexpectedAt_ne_ok

theorem parseAggregate_append {ref : CellRef} (kind : Aggregate)
    (href : DerivesSummand (used.map Lexeme.token) ref) (rest : List Lexeme) :
    Gives (parseAggregate kind (used ++ rest))
      (.cell { ref with aggregate := some kind }) rest := by
  generalize htokens : used.map Lexeme.token = tokens at href
  cases href with
  | ref href =>
    obtain ⟨inside, rfl⟩ := href.exists_cons
    rw [← htokens] at href
    have hgives := parseCellRef_append href rest
    obtain ⟨⟨_, o⟩, used, rfl, rfl, rfl⟩ := List.map_eq_cons_iff.mp htokens
    rw [List.cons_append] at hgives ⊢
    obtain ⟨_, hread⟩ := hgives.eq_ok
    simp only [parseAggregate, hread, ok_bind]
    exact ⟨_, rfl, rfl, rfl⟩
  | keyFigure hname =>
    simp only [List.map_eq_cons_iff, List.map_eq_nil_iff] at htokens
    obtain ⟨⟨token, o⟩, _, rfl, rfl, rfl⟩ := htokens
    cases token with
    | word code =>
      cases hname
      exact ⟨_, rfl, rfl, rfl⟩
    | quoted code =>
      cases hname
      exact ⟨_, rfl, rfl, rfl⟩
    | _ => cases hname

theorem parseReference_eq_ok {e : Expr} {h} (hp : parseReference ts = .ok ⟨e, rest, h⟩) :
    ∃ t name used filters o, referenceNameOf? t.token = some name ∧
      ts = t :: (used ++ ⟨.symbol .rightParen, o⟩ :: rest) ∧
      DerivesMoreFilters (used.map Lexeme.token) filters ∧ e = .reference ⟨name, filters⟩ := by
  unfold parseReference at hp
  split at hp
  · rename_i t more
    split at hp
    · rename_i name hname
      obtain ⟨⟨filters, rest₁, h₁⟩, hfilters, hp⟩ := bind_eq_ok.mp hp
      obtain ⟨⟨_, rest₂, h₂⟩, hclose, hp⟩ := bind_eq_ok.mp hp
      cases hp
      obtain ⟨used, rfl, hused⟩ := parseMoreFilters_eq_ok hfilters
      obtain ⟨o, rfl⟩ := expectSymbol_eq_ok hclose
      exact ⟨t, name, used, filters, o, hname, rfl, hused, rfl⟩
    · exact absurd hp unexpectedAt_ne_ok
  · exact absurd hp unexpectedAt_ne_ok

theorem parseReference_append {name : String}
    (hname : referenceNameOf? t.token = some name)
    (hfilters : DerivesMoreFilters (used.map Lexeme.token) filters) (o : Nat) (rest : List Lexeme) :
    Gives (parseReference (t :: (used ++ ⟨.symbol .rightParen, o⟩ :: rest)))
      (.reference ⟨name, filters⟩) rest := by
  obtain ⟨_, hread⟩ := (parseMoreFilters_append hfilters
    (⟨.symbol .rightParen, o⟩ :: rest) rfl).eq_ok
  obtain ⟨_, hclose⟩ := expectSymbol_cons .rightParen o rest
  simp only [parseReference, hname, hread, hclose, ok_bind]
  exact ⟨_, rfl, rfl, rfl⟩

end

end PlanLedger.Formula
