import PlanLedger.Proofs.Formula.Completeness
import PlanLedger.Proofs.Formula.Literals

/-!
# Printable expressions

A printable expression is one that the words of its text leave no doubt about: its names are plain
identifiers, its numbers have no sign and its calls are those that are read. The text of a
printable reference is cut into tokens that spell the reference, which are found from its end to
its beginning.

How a reference is written is one question, and how the codes in it are written is another one. A
reference is spelled by its text if each of its codes is spelled by its literal.
-/

namespace PlanLedger.Formula

/-! ## Printable expressions -/

/-- Whether a filter is written with plain identifiers, its dimension by the name that stands for
it. -/
def DimFilter.isPrintable (f : DimFilter) : Bool :=
  isIdentifier f.dimension.name && Dimension.ofName f.dimension.name == f.dimension &&
    match f.value with
    | .code text => isIdentifier text
    | .id _ => false
    | .loop => true

/-- Whether a cell reference is written with plain identifiers. -/
def CellRef.isPrintable (r : CellRef) : Bool :=
  r.filters.all DimFilter.isPrintable &&
    match r.keyFigure with
    | .code text => isIdentifier text
    | _ => false

/-- Whether a look-up is written with plain identifiers. -/
def ReferenceCall.isPrintable (c : ReferenceCall) : Bool :=
  isIdentifier c.name && c.filters.all DimFilter.isPrintable

namespace Expr

/-- Whether an expression is printable, its parts aside. -/
def isPlain : Expr → Bool
  | number value => !value.negative
  | cell r => r.isPrintable
  | call name args =>
    match Function.ofCapitals? name with
    | some f => f.arity.admits args.length
    | none => false
  | subFormula name => !name.toList.isEmpty && name.toList.all isWordChar && !isLoopName name
  | constant name => isConstantName name && Keyword.all.all fun k ↦ name != k.text
  | reference c => c.isPrintable
  | _ => true

/-- Whether an expression is printable with all its parts. -/
def isPrintable (e : Expr) : Bool := e.nodes.all isPlain

end Expr

/-! ## Texts of references -/

/-- A text is cut into tokens that have a property. -/
def Spells (s : List Char) (P : List Token → Prop) : Prop := ∃ ts, P ts ∧ Scans s ts

theorem scan_equal {c : Char} (h : c ≠ '=') (s : List Char) :
    scan ('=' :: c :: s) = .symbol .equal :: scan (c :: s) := by
  refine scan_cons rfl ?_
  have hcut : cutToken '=' (c :: s) =
      if c = '=' then ⟨.symbol .equal, s⟩ else ⟨.symbol .equal, c :: s⟩ := rfl
  rw [hcut, if_neg h]

theorem Scans.equal {c : Char} {s : List Char} {ts : List Token} (hc : c ≠ '=')
    (h : Scans (c :: s) ts) : Scans ('=' :: c :: s) (.symbol .equal :: ts) := by
  intro rest hrest
  rw [List.cons_append, List.cons_append, scan_equal hc, ← List.cons_append, h rest hrest,
    List.cons_append]

theorem Scans.rightParen {s : List Char} {ts : List Token} (h : Scans s ts) :
    Scans (s ++ [')']) (ts ++ [.symbol .rightParen]) :=
  h.append (.symbol rfl .nil) rfl

theorem isPlainCode_of_isIdentifier {text : String} (h : isIdentifier text = true) :
    isPlainCode text = true :=
  List.all_eq_true.mpr (isWordChar_of_mem_identifier h)

/-! ## Literals in references -/

/-- The text of a filter, with its code written as a literal. -/
def DimFilter.writtenWith (literal : String → String) (f : DimFilter) : String :=
  f.dimension.name ++ "=" ++
    match f.value with
    | .code text => literal text
    | value => value.toText

/-- The text of a cell reference, with the codes of its filters and its key figure written as
literals. -/
def CellRef.writtenWith (filterLiteral literal : String → String) (r : CellRef) : String :=
  let aggregate := match r.aggregate with
    | some kind => kind.tag ++ ":"
    | none => ""
  let keyFigure := "[" ++ (match r.keyFigure with
    | .code text => literal text
    | value => value.toText) ++ "]"
  if r.filters.isEmpty && !r.optional then aggregate ++ keyFigure
  else
    aggregate ++ "[" ++ ",".intercalate (r.filters.map (DimFilter.writtenWith filterLiteral)) ++
      "]" ++ (if r.optional then "?" else "") ++ "." ++ keyFigure

/-- The text of a look-up, with the codes of its filters and its name written as literals. -/
def ReferenceCall.writtenWith (filterLiteral literal : String → String) (c : ReferenceCall) :
    String :=
  "REF(" ++ literal c.name ++
    String.join (c.filters.map fun f ↦ ", " ++ f.writtenWith filterLiteral) ++ ")"

/-- The literal of a code in a filter as it is printed. -/
def codeLiteral (text : String) : String := if isPlainCode text then text else quote text

theorem DimFilter.toText_eq (f : DimFilter) : f.toText = f.writtenWith codeLiteral := by
  rw [toText, writtenWith]
  cases f.value <;> rfl

theorem CellRef.toText_eq (r : CellRef) : r.toText = r.writtenWith codeLiteral id := by
  have hkeyFigure : (match r.keyFigure with
      | .code text => id text
      | value => value.toText) = r.keyFigure.toText := by
    cases r.keyFigure <;> rfl
  have hfilters : r.filters.map DimFilter.toText =
      r.filters.map (DimFilter.writtenWith codeLiteral) :=
    List.map_congr_left fun f _ ↦ f.toText_eq
  rewrite [toText, writtenWith, hkeyFigure, hfilters]
  rfl

theorem ReferenceCall.toText_eq (c : ReferenceCall) :
    c.toText = c.writtenWith codeLiteral fun name ↦ "'" ++ name ++ "'" := by
  rw [toText, writtenWith]
  simp only [DimFilter.toText_eq, String.append_assoc]
  rfl

/-- A literal is cut off as one token, which stands for a code. -/
def SpellsCode (literal code : String) : Prop :=
  ∃ t, codeOf? t = some code ∧ Scans literal.toList [t]

theorem spellsCode_of_isCode {text : String} (h : isCode text = true) : SpellsCode text text :=
  Scans.code h

theorem spellsCode_quoteWith {quote : Char} (hquote : IsQuote quote) (text : String) :
    SpellsCode (quoteWith quote text) text :=
  ⟨.quoted text, rfl, .quoteWith hquote text⟩

theorem SpellsCode.exists_cons {literal code : String} (h : SpellsCode literal code) :
    ∃ c s, literal.toList = c :: s ∧ c ≠ '=' := by
  obtain ⟨t, ht, hscans⟩ := h
  have hscan := hscans [] trivial
  rw [List.append_nil, scan_nil, List.append_nil] at hscan
  match hliteral : literal.toList with
  | [] =>
    rw [hliteral, scan_nil] at hscan
    cases hscan
  | c :: s =>
    refine ⟨c, s, rfl, ?_⟩
    rintro rfl
    rw [hliteral, scan_cons_eq rfl] at hscan
    have hvalue : (cutToken '=' s).value = .symbol .equal := by
      have hcut : cutToken '=' s = cutSymbol s '=' (.symbol .equal) (.symbol .equal) := rfl
      rw [hcut]
      unfold cutSymbol
      split
      · split_ifs <;> rfl
      · rfl
    rw [← (List.cons.inj hscan).1, hvalue] at ht
    cases ht

section

variable {filters : List DimFilter} {filterLiteral literal : String → String}

/-- Whether the dimension of a filter is written by the name that stands for it, and its value as a
code or by the name for the current combination. -/
def DimFilter.isNamed (f : DimFilter) : Bool :=
  isIdentifier f.dimension.name && Dimension.ofName f.dimension.name == f.dimension &&
    match f.value with
    | .id _ => false
    | _ => true

theorem DimFilter.isNamed_of_isPrintable {f : DimFilter} (h : f.isPrintable = true) :
    f.isNamed = true := by
  rw [isPrintable, Bool.and_eq_true] at h
  rw [isNamed, h.1, Bool.true_and]
  generalize f.value = value at h
  cases value with
  | id n => exact h.2
  | _ => rfl

theorem DimFilter.writtenWith_of_code {f : DimFilter} {text : String} (h : f.value = .code text)
    (literal : String → String) :
    f.writtenWith literal = f.dimension.name ++ "=" ++ literal text := by
  rw [writtenWith, h]

theorem DimFilter.writtenWith_of_loop {f : DimFilter} (h : f.value = .loop)
    (literal : String → String) : f.writtenWith literal = f.dimension.name ++ "=" ++ "$LOOP" := by
  rw [writtenWith, h]
  rfl

theorem Scans.loop : Scans "$LOOP".toList [.dollar "LOOP"] := by
  have hdollar : Scans ('$' :: "LOOP".toList) [.dollar "LOOP"] :=
    Scans.dollar (by decide) (List.all_eq_true.mp (by decide))
  exact hdollar

theorem DimFilter.spells {f : DimFilter} (h : f.isNamed = true)
    (hcode : ∀ text, f.value = .code text → SpellsCode (literal text) text) :
    Spells (f.writtenWith literal).toList (DerivesFilter · f) := by
  obtain ⟨dimension, value⟩ := f
  simp only [isNamed, Bool.and_eq_true, beq_iff_eq] at h
  obtain ⟨⟨hname, hcanonical⟩, hvalue⟩ := h
  -- The value is one token, and its text does not begin with an equality sign.
  have htoken : ∃ t c s, DerivesDimValue t value ∧
      writtenWith literal ⟨dimension, value⟩ = dimension.name ++ "=" ++ String.ofList (c :: s) ∧
        c ≠ '=' ∧ Scans (c :: s) [t] := by
    cases value with
    | code text =>
      obtain ⟨c, s, htext, hc⟩ := (hcode text rfl).exists_cons
      obtain ⟨t, ht, hscans⟩ := hcode text rfl
      refine ⟨t, c, s, .code ht, ?_, hc, htext ▸ hscans⟩
      rw [writtenWith_of_code rfl, ← htext, String.ofList_toList]
    | id n => cases hvalue
    | loop =>
      exact ⟨_, '$', "LOOP".toList, .loop (by decide +kernel), writtenWith_of_loop rfl literal,
        by decide, Scans.loop⟩
  obtain ⟨t, c, s, ht, htext, hc, hscans⟩ := htoken
  refine ⟨[.word dimension.name, .symbol .equal, t], ?_, ?_⟩
  · have hfilter : DerivesFilter [.word dimension.name, .symbol .equal, t]
        ⟨.ofName dimension.name, value⟩ := .mk ht
    rwa [hcanonical] at hfilter
  · rw [htext]
    simp only [String.toList_append, String.toList_ofList, List.append_assoc]
    exact (Scans.word hname).append (hscans.equal hc) rfl

theorem DimFilter.spells_of_isPrintable {f : DimFilter} (h : f.isPrintable = true) :
    Spells (f.writtenWith codeLiteral).toList (DerivesFilter · f) := by
  refine DimFilter.spells (isNamed_of_isPrintable h) fun text htext ↦ ?_
  rw [isPrintable, htext, Bool.and_eq_true] at h
  rw [codeLiteral, if_pos (isPlainCode_of_isIdentifier h.2)]
  exact spellsCode_of_isCode (Bool.or_eq_true_iff.mpr (.inl h.2))

theorem spells_moreFilters {write : DimFilter → String} (sep : List Char)
    (hbreak : ∀ s, Breaks (sep ++ s))
    (hsep : ∀ {s ts}, Scans s ts → Scans (sep ++ s) (.symbol .comma :: ts))
    (h : ∀ f ∈ filters, Spells (write f).toList (DerivesFilter · f)) :
    Breaks (filters.flatMap fun f ↦ sep ++ (write f).toList) ∧
      Spells (filters.flatMap fun f ↦ sep ++ (write f).toList) (DerivesMoreFilters · filters) := by
  induction filters with
  | nil => exact ⟨trivial, [], .nil, .nil⟩
  | cons f filters ih =>
    obtain ⟨hfirst, hothers⟩ := List.forall_mem_cons.mp h
    obtain ⟨first, hderives, hscans⟩ := hfirst
    obtain ⟨hbreaks, more, hmore, hscansMore⟩ := ih hothers
    rw [List.flatMap_cons, List.append_assoc]
    exact ⟨hbreak _, .symbol .comma :: (first ++ more), .cons hderives hmore,
      hsep (hscans.append hscansMore hbreaks)⟩

theorem intercalate_cons {α : Type} (sep a : List α) (l : List (List α)) :
    sep.intercalate (a :: l) = a ++ l.flatMap (sep ++ ·) := by
  induction l generalizing a with
  | nil => simp
  | cons b l ih => simp only [List.intercalate_cons_cons, ih, List.flatMap_cons, List.append_assoc]

theorem spells_filters {write : DimFilter → String}
    (h : ∀ f ∈ filters, Spells (write f).toList (DerivesFilter · f)) :
    Spells (",".intercalate (filters.map write)).toList (DerivesFilters · filters) := by
  rw [String.toList_intercalate, List.map_map]
  cases filters with
  | nil => exact ⟨[], .nil, .nil⟩
  | cons f filters =>
    obtain ⟨hfirst, hothers⟩ := List.forall_mem_cons.mp h
    obtain ⟨first, hderives, hscans⟩ := hfirst
    obtain ⟨hbreaks, more, hmore, hscansMore⟩ := spells_moreFilters [','] (fun _ ↦ rfl)
      (fun h ↦ .symbol rfl h) hothers
    rw [List.map_cons, intercalate_cons, List.flatMap_map]
    exact ⟨first ++ more, .cons hderives hmore, hscans.append hscansMore hbreaks⟩

/-! ## Texts of cells and look-ups -/

theorem Scans.keyFigure {text : String} {t : Token} (h : Scans text.toList [t]) :
    Scans ('[' :: (text.toList ++ [']'])) [.symbol .leftBracket, t, .symbol .rightBracket] :=
  .symbol rfl (h.append (.symbol rfl .nil) rfl)

/-- A dot before a bracket begins no number. -/
theorem Scans.dot {s : List Char} {ts : List Token} (h : Scans ('[' :: s) ts) :
    Scans ('.' :: '[' :: s) (.symbol .dot :: ts) :=
  cons rfl (fun _ ↦ rfl) h

theorem CellRef.toList_writtenWith_of_filtered {code : String} {optional : Bool}
    (hne : (filters.isEmpty && !optional) = false) :
    (writtenWith filterLiteral literal
        { filters, keyFigure := .code code, optional }).toList =
      '[' :: ((",".intercalate (filters.map (DimFilter.writtenWith filterLiteral))).toList ++
        ']' :: ((if optional then ['?'] else []) ++
          '.' :: '[' :: ((literal code).toList ++ [']']))) := by
  rw [writtenWith]
  dsimp only
  rw [hne, if_neg Bool.false_ne_true]
  cases optional <;> simp

theorem CellRef.toList_writtenWith_bare (filterLiteral literal : String → String) (code : String) :
    (writtenWith filterLiteral literal (.bare code)).toList =
      '[' :: ((literal code).toList ++ [']']) := by
  simp [writtenWith, bare]

/-- A reference is spelled by its text if its filters are and its key figure is spelled by its
literal. -/
theorem CellRef.spells {r : CellRef} (haggregate : r.aggregate = none)
    (hfilters : ∀ f ∈ r.filters, Spells (f.writtenWith filterLiteral).toList (DerivesFilter · f))
    {code : String} (hkeyFigure : r.keyFigure = .code code)
    (hcode : SpellsCode (literal code) code) :
    Spells (r.writtenWith filterLiteral literal).toList (DerivesRef · r) := by
  obtain ⟨aggregate, filters, keyFigure, optional⟩ := r
  cases haggregate
  cases hkeyFigure
  obtain ⟨t, ht, hscansCode⟩ := hcode
  have hscans := hscansCode.keyFigure
  cases hne : filters.isEmpty && !optional with
  | true =>
    obtain ⟨hnone, hrequired⟩ := Bool.and_eq_true_iff.mp hne
    cases List.isEmpty_iff.mp hnone
    cases optional with
    | true => cases hrequired
    | false =>
      refine ⟨_, .bare ht, ?_⟩
      rwa [← toList_writtenWith_bare] at hscans
  | false =>
    rw [toList_writtenWith_of_filtered hne]
    obtain ⟨inner, hinner, hscansInner⟩ := spells_filters hfilters
    cases optional with
    | false =>
      exact ⟨_, .filtered hinner (.required ht),
        .symbol rfl (hscansInner.append (.symbol rfl hscans.dot) rfl)⟩
    | true =>
      exact ⟨_, .filtered hinner (.optional ht),
        .symbol rfl (hscansInner.append (.symbol rfl (.symbol rfl hscans.dot)) rfl)⟩

theorem isIdentifier_tag (kind : Aggregate) : isIdentifier kind.tag = true := by
  cases kind <;> decide

theorem Aggregate.ofName?_tag (kind : Aggregate) : Aggregate.ofName? kind.tag = some kind := by
  cases kind <;> decide +kernel

theorem CellRef.writtenWith_aggregate (filterLiteral literal : String → String) (kind : Aggregate)
    (filters : List DimFilter) (keyFigure : DimValue) (optional : Bool) :
    writtenWith filterLiteral literal ⟨some kind, filters, keyFigure, optional⟩ =
      kind.tag ++ ":" ++
        writtenWith filterLiteral literal ⟨none, filters, keyFigure, optional⟩ := by
  rw [writtenWith, writtenWith]
  dsimp only
  split <;> simp only [String.append_assoc, String.empty_append]

theorem spells_cell {r : CellRef}
    (hfilters : ∀ f ∈ r.filters, Spells (f.writtenWith filterLiteral).toList (DerivesFilter · f))
    {code : String} (hkeyFigure : r.keyFigure = .code code)
    (hcode : SpellsCode (literal code) code) :
    Spells (r.writtenWith filterLiteral literal).toList (Derives .primary · (.cell r)) := by
  obtain ⟨aggregate, filters, keyFigure, optional⟩ := r
  obtain ⟨tokens, href, hscans⟩ :=
    CellRef.spells (r := ⟨none, filters, keyFigure, optional⟩) rfl hfilters hkeyFigure hcode
  cases aggregate with
  | none => exact ⟨tokens, .cell href, hscans⟩
  | some kind =>
    refine ⟨_, .aggregate (Aggregate.ofName?_tag kind) (.ref href), ?_⟩
    rw [CellRef.writtenWith_aggregate, String.toList_append, String.toList_append,
      List.append_assoc]
    exact (Scans.word (isIdentifier_tag kind)).append (.symbol rfl hscans) rfl

theorem ReferenceCall.toList_writtenWith (filterLiteral literal : String → String)
    (c : ReferenceCall) : (c.writtenWith filterLiteral literal).toList =
      "REF".toList ++ '(' :: ((literal c.name).toList ++
        ((c.filters.flatMap fun f ↦ [',', ' '] ++ (f.writtenWith filterLiteral).toList) ++
          [')'])) := by
  simp [writtenWith, String.toList_join, List.flatMap_map]

/-- A look-up is spelled by its text if its filters are and its name is spelled by its literal. -/
theorem spells_reference {c : ReferenceCall}
    (hfilters : ∀ f ∈ c.filters, Spells (f.writtenWith filterLiteral).toList (DerivesFilter · f))
    {t : Token} (ht : referenceNameOf? t = some c.name)
    (hname : Scans (literal c.name).toList [t]) :
    Spells (c.writtenWith filterLiteral literal).toList (Derives .primary · (.reference c)) := by
  obtain ⟨name, filters⟩ := c
  obtain ⟨hbreaks, more, hmore, hscans⟩ := spells_moreFilters [',', ' '] (fun _ ↦ rfl)
    (fun h ↦ .symbol rfl h.blank) hfilters
  have hword : "REF".toUpper = "REF" := by decide +kernel
  refine ⟨_, .reference hword ht hmore, ?_⟩
  rw [ReferenceCall.toList_writtenWith]
  exact (Scans.word (by decide)).append
    (.symbol rfl (hname.append hscans.rightParen (hbreaks.append rfl))) rfl

/-! ## Texts of printable references -/

theorem CellRef.spells_of_isPrintable {r : CellRef} (h : r.isPrintable = true) :
    (∀ f ∈ r.filters, Spells (f.writtenWith codeLiteral).toList (DerivesFilter · f)) ∧
      ∃ code, r.keyFigure = .code code ∧ SpellsCode code code := by
  rw [isPrintable, Bool.and_eq_true, List.all_eq_true] at h
  refine ⟨fun f hf ↦ DimFilter.spells_of_isPrintable (h.1 f hf), ?_⟩
  match hkeyFigure : r.keyFigure with
  | .code code =>
    rw [hkeyFigure] at h
    exact ⟨code, rfl, spellsCode_of_isCode (Bool.or_eq_true_iff.mpr (.inl h.2))⟩
  | .id n =>
    rw [hkeyFigure] at h
    cases h.2
  | .loop =>
    rw [hkeyFigure] at h
    cases h.2

theorem CellRef.spells_toText {r : CellRef} (haggregate : r.aggregate = none)
    (h : r.isPrintable = true) : Spells r.toText.toList (DerivesRef · r) := by
  obtain ⟨hfilters, code, hkeyFigure, hcode⟩ := spells_of_isPrintable h
  rw [toText_eq]
  exact spells haggregate hfilters hkeyFigure hcode

theorem spells_cell_toText {r : CellRef} (h : r.isPrintable = true) :
    Spells r.toText.toList (Derives .primary · (.cell r)) := by
  obtain ⟨hfilters, code, hkeyFigure, hcode⟩ := CellRef.spells_of_isPrintable h
  rw [CellRef.toText_eq]
  exact spells_cell hfilters hkeyFigure hcode

theorem spells_reference_toText {c : ReferenceCall} (h : c.isPrintable = true) :
    Spells c.toText.toList (Derives .primary · (.reference c)) := by
  rw [ReferenceCall.isPrintable, Bool.and_eq_true, List.all_eq_true] at h
  have hquote : '\'' ∉ c.name.toList := fun hmem ↦
    absurd (isWordChar_of_mem_identifier h.1 _ hmem) (by decide)
  rw [ReferenceCall.toText_eq]
  exact spells_reference (fun f hf ↦ DimFilter.spells_of_isPrintable (h.2 f hf)) rfl (.name hquote)

end

end PlanLedger.Formula
