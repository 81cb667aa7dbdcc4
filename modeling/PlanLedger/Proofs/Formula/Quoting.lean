import PlanLedger.Proofs.Formula.Printing

/-!
# Quoted literals

A reference whose codes are all written in quotes is read with exactly these codes, whatever
characters they have. Printed again, it is not always read back, as it is not always printed with
quotes: a plain code of a filter has none, the key figure never has any, and the quotes within a
name are not doubled. So what is printed is read back exactly if each plain code and the key figure
are identifiers or numerals, and the name has no single quotes.

If all codes survive, the printed text is spelled as the reference. Conversely, the tokens that
spell the reference are followed through its printed text from the beginning on: each code uses up
its own literal, so the next one is looked for where it was written. Only the key figure of a
reference without filters could be found elsewhere, namely within itself, and there is no room for
that.
-/

namespace PlanLedger.Formula

/-! ## References of any codes -/

/-- Whether the key figure of a reference is a code, and its filters are written by names. -/
def CellRef.isNamed (r : CellRef) : Bool :=
  r.filters.all DimFilter.isNamed &&
    match r.keyFigure with
    | .code _ => true
    | _ => false

/-- Whether the filters of a look-up are written by names. -/
def ReferenceCall.isNamed (c : ReferenceCall) : Bool := c.filters.all DimFilter.isNamed

theorem CellRef.isNamed_iff {r : CellRef} : r.isNamed = true ↔
    (∀ f ∈ r.filters, f.isNamed = true) ∧ ∃ code, r.keyFigure = .code code := by
  rw [isNamed, Bool.and_eq_true, List.all_eq_true]
  cases r.keyFigure <;> simp

/-! ## What has been quoted is read -/

section

variable {text : String}

theorem ofText_of_spells {e : Expr} (hleads : Leads text.toList) (hcloses : Closes text.toList)
    (h : Spells text.toList (Derives .primary · e)) : Expr.ofText text = .ok e := by
  obtain ⟨tokens, hderives, hscans⟩ := h
  rw [Expr.ofText_eq_ok_iff, tokensOf_eq hleads hcloses hscans]
  exact hderives.unsigned.expr_of_signed

theorem ofText_quoted_cell {quote : Char} (hquote : IsQuote quote) {r : CellRef}
    (h : r.isNamed = true) :
    Expr.ofText (r.writtenWith (quoteWith quote) (quoteWith quote)) = .ok (.cell r) := by
  obtain ⟨hfilters, code, hkeyFigure⟩ := CellRef.isNamed_iff.mp h
  refine ofText_of_spells (r.leads _ _) (r.closes _ _) ?_
  refine spells_cell (fun f hf ↦ ?_) hkeyFigure (spellsCode_quoteWith hquote code)
  exact DimFilter.spells (hfilters f hf) fun text _ ↦ spellsCode_quoteWith hquote text

theorem ofText_quoted_reference {quote : Char} (hquote : IsQuote quote) {c : ReferenceCall}
    (h : c.isNamed = true) :
    Expr.ofText (c.writtenWith (quoteWith quote) (quoteWith quote)) = .ok (.reference c) := by
  have hfilters := List.all_eq_true.mp h
  refine ofText_of_spells (c.leads _ _) (c.closes _ _) ?_
  refine spells_reference (fun f hf ↦ ?_) (t := .quoted c.name) rfl (.quoteWith hquote c.name)
  exact DimFilter.spells (hfilters f hf) fun text _ ↦ spellsCode_quoteWith hquote text

theorem ofText_quoted_summand {quote : Char} (hquote : IsQuote quote) (kind : Aggregate)
    (text : String) : Expr.ofText (kind.tag ++ ":" ++ quoteWith quote text) =
      .ok (.cell { CellRef.bare text with aggregate := some kind }) := by
  have hlist : (kind.tag ++ ":" ++ quoteWith quote text).toList =
      kind.tag.toList ++ ':' :: (quoteWith quote text).toList := by
    simp
  have hquotes : (quoteWith quote text).toList =
      quote :: doubled quote text.toList ++ [quote] := String.toList_ofList
  have hblank : Text.isBlank quote = false := by
    rcases hquote with rfl | rfl <;> rfl
  refine ofText_of_spells ?_ ?_ ?_
  · rw [hlist]
    exact (leads_of_isIdentifier (isIdentifier_tag kind)).append _
  · rw [hlist, hquotes]
    exact ⟨quote, by simp [List.getLast?_cons], hblank⟩
  · rw [hlist]
    exact ⟨_, .aggregate (Aggregate.ofName?_tag kind) (.keyFigure (t := .quoted text) rfl),
      (Scans.word (isIdentifier_tag kind)).append (.symbol rfl (.quoteWith hquote text)) rfl⟩

end

/-! ## What is printed -/

/-- Whether a filter is read back as it is printed. -/
def DimFilter.survives (f : DimFilter) : Bool :=
  match f.value with
  | .code text => !isPlainCode text || isCode text
  | _ => true

/-- Whether a cell reference is read back as it is printed. -/
def CellRef.survives (r : CellRef) : Bool :=
  r.filters.all DimFilter.survives &&
    match r.keyFigure with
    | .code text => isCode text
    | _ => false

/-- Whether a look-up is read back as it is printed. -/
def ReferenceCall.survives (c : ReferenceCall) : Bool :=
  c.filters.all DimFilter.survives && !c.name.toList.contains '\''

theorem DimFilter.spells_of_survives {f : DimFilter} (hnamed : f.isNamed = true)
    (h : f.survives = true) :
    Spells (f.writtenWith codeLiteral).toList (DerivesFilter · f) := by
  refine DimFilter.spells hnamed fun text htext ↦ ?_
  rw [survives, htext] at h
  rw [codeLiteral]
  split_ifs with hplain
  · exact spellsCode_of_isCode (by simpa [hplain] using h)
  · rw [quote_eq_quoteWith]
    exact spellsCode_quoteWith (.inl rfl) text

theorem CellRef.survives_iff {r : CellRef} {code : String} (h : r.keyFigure = .code code) :
    r.survives = true ↔ (∀ f ∈ r.filters, f.survives = true) ∧ isCode code = true := by
  rw [survives, h, Bool.and_eq_true, List.all_eq_true]

theorem ReferenceCall.survives_iff {c : ReferenceCall} :
    c.survives = true ↔ (∀ f ∈ c.filters, f.survives = true) ∧ '\'' ∉ c.name.toList := by
  rw [survives, Bool.and_eq_true, List.all_eq_true]
  simp

theorem CellRef.ofText_toText {r : CellRef} (hnamed : r.isNamed = true)
    (h : r.survives = true) : Expr.ofText r.toText = .ok (.cell r) := by
  obtain ⟨hfilters, code, hkeyFigure⟩ := CellRef.isNamed_iff.mp hnamed
  obtain ⟨hsurvive, hcode⟩ := (survives_iff hkeyFigure).mp h
  refine ofText_of_spells r.leads_toText r.closes_toText ?_
  rw [toText_eq]
  refine spells_cell (fun f hf ↦ ?_) hkeyFigure (spellsCode_of_isCode hcode)
  exact DimFilter.spells_of_survives (hfilters f hf) (hsurvive f hf)

theorem ReferenceCall.ofText_toText {c : ReferenceCall} (hnamed : c.isNamed = true)
    (h : c.survives = true) : Expr.ofText c.toText = .ok (.reference c) := by
  have hfilters := List.all_eq_true.mp hnamed
  obtain ⟨hsurvive, hname⟩ := survives_iff.mp h
  rw [toText_eq]
  refine ofText_of_spells (c.leads _ _) (c.closes _ _) ?_
  refine spells_reference (fun f hf ↦ ?_) rfl (.name hname)
  exact DimFilter.spells_of_survives (hfilters f hf) (hsurvive f hf)

/-! ## Filters that are read back -/

/-- A text begins with a symbol before which a literal ends. -/
def BeginsWithSymbol (s : List Char) : Prop :=
  ∃ c symbol rest, s = c :: rest ∧ singleSymbol? c = some symbol ∧ isBreak c = true

section

variable {s : List Char} {filters : List DimFilter} {first more after : List Token}

theorem BeginsWithSymbol.breaks (h : BeginsWithSymbol s) : Breaks s := by
  obtain ⟨c, symbol, rest, rfl, -, hbreak⟩ := h
  exact hbreak

theorem BeginsWithSymbol.filters_append (hs : BeginsWithSymbol s) (sep : List Char)
    (hsep : ∀ s, BeginsWithSymbol (sep ++ s)) (filters : List DimFilter) : BeginsWithSymbol
      ((filters.flatMap fun f ↦ sep ++ (f.writtenWith codeLiteral).toList) ++ s) := by
  cases filters with
  | nil => exact hs
  | cons f filters =>
    rw [List.flatMap_cons, List.append_assoc, List.append_assoc]
    exact hsep _

private theorem exists_cons_of_plain {text : String} (hplain : isPlainCode text = true)
    (hs : BeginsWithSymbol s) : ∃ c rest, text.toList ++ s = c :: rest ∧ c ≠ '=' := by
  match htext : text.toList with
  | [] =>
    obtain ⟨c, symbol, rest, rfl, hc, -⟩ := hs
    exact ⟨c, rest, rfl, by rintro rfl; cases hc⟩
  | c :: rest =>
    have hc : isWordChar c = true :=
      List.all_eq_true.mp hplain c (by rw [htext]; exact List.mem_cons_self)
    exact ⟨c, rest ++ s, rfl, by rintro rfl; exact absurd hc (by decide)⟩

/-- What the value of a filter and the text after it are cut into, if the tokens of the filter
begin what the whole text is cut into. -/
private theorem scan_value_of_filter {f : DimFilter} (hnamed : f.isNamed = true) {value : List Char}
    (hvalue : ∃ c rest, value ++ s = c :: rest ∧ c ≠ '=') (hderives : DerivesFilter first f)
    (h : scan (f.dimension.name.toList ++ '=' :: (value ++ s)) = first ++ after) :
    ∃ t, DerivesDimValue t f.value ∧ scan (value ++ s) = t :: after := by
  obtain ⟨c, rest, htext, hc⟩ := hvalue
  have hname : isIdentifier f.dimension.name = true := by
    rw [DimFilter.isNamed, Bool.and_assoc, Bool.and_eq_true] at hnamed
    exact hnamed.1
  rw [htext, Scans.word hname ('=' :: c :: rest) rfl, scan_equal hc] at h
  rw [htext]
  cases hderives with
  | mk ht => exact ⟨_, ht, (List.cons.inj (List.cons.inj h).2).2⟩

/-- If the tokens of a filter begin what a text before a symbol is cut into, the filter is read back
and its text is used up. -/
theorem DimFilter.survives_of_scan {f : DimFilter} (hnamed : f.isNamed = true)
    (hs : BeginsWithSymbol s) (hderives : DerivesFilter first f)
    (h : scan ((f.writtenWith codeLiteral).toList ++ s) = first ++ after) :
    f.survives = true ∧ scan s = after := by
  have htext (value : String) : (f.dimension.name ++ "=" ++ value).toList ++ s =
      f.dimension.name.toList ++ '=' :: (value.toList ++ s) := by
    simp
  match hvalue : f.value with
  | .code text =>
    rw [writtenWith_of_code hvalue, htext, codeLiteral] at h
    by_cases hplain : isPlainCode text = true
    · rw [if_pos hplain] at h
      obtain ⟨t, ht, hscan⟩ :=
        scan_value_of_filter hnamed (exists_cons_of_plain hplain hs) hderives h
      rw [hvalue] at ht
      obtain ⟨c, symbol, rest, rfl, hc, hbreak⟩ := hs
      cases ht with
      | code ht =>
        obtain ⟨hcode, hrest⟩ := isCode_of_scan_plain hc hbreak hplain hscan ht
        exact ⟨by simp [survives, hvalue, hcode], hrest⟩
    · rw [if_neg hplain, quote_eq_quoteWith] at h
      obtain ⟨t, -, hscan⟩ :=
        scan_value_of_filter hnamed
          ⟨'\'', _, congrArg (· ++ s) String.toList_ofList, by decide⟩ hderives h
      rw [Scans.quoteWith (.inl rfl) text s hs.breaks] at hscan
      exact ⟨by simp [survives, hvalue, hplain], (List.cons.inj hscan).2⟩
  | .loop =>
    rw [writtenWith_of_loop hvalue, htext] at h
    obtain ⟨t, -, hscan⟩ :=
      scan_value_of_filter hnamed ⟨'$', "LOOP".toList ++ s, rfl, by decide⟩ hderives h
    rw [Scans.loop s hs.breaks] at hscan
    exact ⟨by rw [survives, hvalue], (List.cons.inj hscan).2⟩
  | .id n =>
    rw [isNamed, hvalue] at hnamed
    cases (Bool.and_eq_true_iff.mp hnamed).2

/-- So are filters that each follow a separator, which is a comma for the reader. -/
theorem survives_of_scan_more (sep : List Char) (hbegins : ∀ s, BeginsWithSymbol (sep ++ s))
    (hsep : ∀ s, scan (sep ++ s) = .symbol .comma :: scan s)
    (hnamed : ∀ f ∈ filters, f.isNamed = true) (hs : BeginsWithSymbol s)
    (hderives : DerivesMoreFilters more filters)
    (h : scan ((filters.flatMap fun f ↦ sep ++ (f.writtenWith codeLiteral).toList) ++ s) =
      more ++ after) :
    (∀ f ∈ filters, f.survives = true) ∧ scan s = after := by
  induction hderives generalizing after with
  | nil => exact ⟨fun _ hf ↦ absurd hf List.not_mem_nil, h⟩
  | @cons first f more filters hfirst hmore ih =>
    obtain ⟨hnamedFirst, hnamedMore⟩ := List.forall_mem_cons.mp hnamed
    have hends := hs.filters_append sep hbegins filters
    rw [List.flatMap_cons, List.append_assoc, List.append_assoc, hsep, List.cons_append,
      List.append_assoc] at h
    obtain ⟨hsurvives, hrest⟩ :=
      DimFilter.survives_of_scan hnamedFirst hends hfirst (List.cons.inj h).2
    obtain ⟨hothers, hafter⟩ := ih hnamedMore hrest
    exact ⟨List.forall_mem_cons.mpr ⟨hsurvives, hothers⟩, hafter⟩

theorem survives_of_scan_filters (hnamed : ∀ f ∈ filters, f.isNamed = true)
    (hs : BeginsWithSymbol s) (hderives : DerivesFilters first filters)
    (h : scan ((",".intercalate (filters.map (DimFilter.writtenWith codeLiteral))).toList ++ s) =
      first ++ after) :
    (∀ f ∈ filters, f.survives = true) ∧ scan s = after := by
  rw [String.toList_intercalate, List.map_map] at h
  cases hderives with
  | nil => exact ⟨fun _ hf ↦ absurd hf List.not_mem_nil, h⟩
  | @cons first f more filters hfirst hmore =>
    obtain ⟨hnamedFirst, hnamedMore⟩ := List.forall_mem_cons.mp hnamed
    rw [List.map_cons, intercalate_cons, List.flatMap_map, List.append_assoc,
      List.append_assoc] at h
    have hends := hs.filters_append [','] (fun _ ↦ ⟨',', _, _, rfl, rfl, rfl⟩) filters
    obtain ⟨hsurvives, hrest⟩ := DimFilter.survives_of_scan hnamedFirst hends hfirst h
    obtain ⟨hothers, hafter⟩ := survives_of_scan_more [','] (fun _ ↦ ⟨',', _, _, rfl, rfl, rfl⟩)
      (fun s ↦ scan_symbol rfl s) hnamedMore hs hmore hrest
    exact ⟨List.forall_mem_cons.mpr ⟨hsurvives, hothers⟩, hafter⟩

end

/-! ## References that are read back -/

section

variable {tokens : List Token} {e : Expr}

theorem Derives.operand_of_level {l : Level} (h : Derives (.level l) tokens e)
    (hbinary : ∀ op a b, e ≠ .binary op a b) : Derives (.operand l) tokens e := by
  cases h with
  | single h => exact h
  | chain => exact absurd rfl (hbinary _ _ _)

theorem Derives.primary_of_expr (h : Derives .expr tokens e)
    (hbinary : ∀ op a b, e ≠ .binary op a b) (hnegate : ∀ a, e ≠ .negate a)
    (hplus : tokens.head? ≠ some (.symbol .plus)) : Derives .primary tokens e := by
  -- From the weakest operators the way leads down through all levels.
  have hpower : Derives .power tokens e := by
    cases h.operand_of_level hbinary with
    | sum h =>
      cases h.operand_of_level hbinary with
      | product h =>
        cases h.operand_of_level hbinary with
        | power h => exact h
  cases hpower with
  | raise => exact absurd rfl (hbinary _ _ _)
  | base hsigned =>
    cases hsigned with
    | unsigned h => exact h
    | negate => exact absurd rfl (hnegate _)
    | plus => exact absurd rfl hplus

theorem derivesRef_of_derives {r : CellRef} (hbracket : tokens.head? = some (.symbol .leftBracket))
    (h : Derives .primary tokens (.cell r)) : DerivesRef tokens r := by
  cases h with
  | parens => cases hbracket
  | cell href => exact href
  | aggregate => cases hbracket

theorem derivesRef_of_derives_aggregate {kind : Aggregate} {filters : List DimFilter}
    {keyFigure : DimValue} {optional : Bool} (hbracket : tokens.head? = some (.symbol .leftBracket))
    (h : Derives .primary (.word kind.tag :: .symbol .colon :: tokens)
      (.cell ⟨some kind, filters, keyFigure, optional⟩)) :
    DerivesRef tokens ⟨none, filters, keyFigure, optional⟩ := by
  generalize hr : CellRef.mk (some kind) filters keyFigure optional = r at h
  generalize hfirst : Token.word kind.tag :: .symbol .colon :: tokens = all at h
  cases h with
  | parens => cases hfirst
  | cell href => cases href <;> cases hfirst
  | @aggregate word kind' tokens ref hkind hsummand =>
    cases hfirst
    cases hsummand with
    | keyFigure ht =>
      obtain rfl := Option.some_inj.mp hbracket
      cases ht
    | ref href =>
      obtain ⟨aggregate, filters', keyFigure', optional'⟩ := ref
      obtain ⟨-, rfl, rfl, rfl⟩ := CellRef.mk.inj hr
      obtain rfl : aggregate = none := href.aggregate_eq_none
      exact href

theorem Derives.reference_inv {word : String} {c : ReferenceCall}
    (h : Derives .primary (.word word :: tokens) (.reference c)) :
    ∃ t more, tokens = .symbol .leftParen :: t :: (more ++ [.symbol .rightParen]) ∧
      referenceNameOf? t = some c.name ∧ DerivesMoreFilters more c.filters := by
  cases h with
  | reference _ ht hmore => exact ⟨_, _, rfl, ht, hmore⟩

end

section

variable {s : List Char} {code : String} {t : Token} {ts : List Token}

/-- Of a key figure in brackets after a dot only the text in the brackets is left to read. -/
theorem isCode_of_derivesKeyFigure {optional : Bool} (h : DerivesKeyFigure ts code optional)
    (hscan : scan ((if optional then ['?'] else []) ++ '.' :: '[' :: (code.toList ++ [']'])) = ts) :
    isCode code = true := by
  have hdot (s : List Char) : scan ('.' :: '[' :: s) = .symbol .dot :: scan ('[' :: s) :=
    scan_cons rfl rfl
  cases h with
  | required ht =>
    rw [if_neg Bool.false_ne_true, List.nil_append, hdot, scan_symbol rfl] at hscan
    exact isCode_of_scan_bracket (List.cons.inj (List.cons.inj hscan).2).2 ht
  | optional ht =>
    rw [if_pos rfl, List.singleton_append, scan_symbol rfl, hdot, scan_symbol rfl] at hscan
    exact isCode_of_scan_bracket (List.cons.inj (List.cons.inj (List.cons.inj hscan).2).2).2 ht

theorem not_derivesKeyFigure_of_scan (h : DerivesKeyFigure ts code false) :
    scan (code.toList ++ [']']) ≠ .symbol .rightBracket :: ts := by
  intro hscan
  cases h with
  | required ht =>
    obtain ⟨s₁, h₁, hlt₁⟩ := exists_shorter_of_scan_eq_cons hscan
    obtain ⟨s₂, h₂, hlt₂⟩ := exists_shorter_of_scan_eq_cons h₁
    obtain ⟨s₃, h₃, hlt₃⟩ := exists_shorter_of_scan_eq_cons h₂
    have hle := length_le_of_codeOf? h₃ ht
    rw [List.length_append, List.length_singleton] at hlt₁
    omega

theorem isCode_of_derivesRef_bare
    (h : DerivesRef (.symbol .leftBracket :: scan (code.toList ++ [']'])) (.bare code)) :
    isCode code = true := by
  generalize htokens : scan (code.toList ++ [']']) = tokens at h
  generalize hr : CellRef.bare code = r at h
  generalize hall : Token.symbol .leftBracket :: tokens = all at h
  cases h with
  | bare ht =>
    cases hr
    cases hall
    exact isCode_of_scan_bracket htokens ht
  | filtered hinner hkeyFigure =>
    cases hr
    cases hinner
    cases hall
    exact absurd htokens (not_derivesKeyFigure_of_scan hkeyFigure)

theorem survives_of_derivesRef_filtered {filters : List DimFilter} {optional : Bool}
    (hne : (filters.isEmpty && !optional) = false) (hnamed : ∀ f ∈ filters, f.isNamed = true)
    (h : DerivesRef (.symbol .leftBracket ::
      scan ((",".intercalate (filters.map (DimFilter.writtenWith codeLiteral))).toList ++
        ']' :: ((if optional then ['?'] else []) ++ '.' :: '[' :: (code.toList ++ [']']))))
      { filters, keyFigure := .code code, optional }) :
    (∀ f ∈ filters, f.survives = true) ∧ isCode code = true := by
  generalize htokens : scan _ = tokens at h
  generalize hall : Token.symbol .leftBracket :: tokens = all at h
  cases h with
  | bare => cases hne
  | filtered hinner hkeyFigure =>
    cases hall
    obtain ⟨hsurvive, hrest⟩ :=
      survives_of_scan_filters hnamed ⟨']', _, _, rfl, rfl, rfl⟩ hinner htokens
    rw [scan_symbol rfl] at hrest
    exact ⟨hsurvive, isCode_of_derivesKeyFigure hkeyFigure (List.cons.inj hrest).2⟩

theorem CellRef.survives_of_derivesRef {r : CellRef} (hnamed : r.isNamed = true)
    (h : DerivesRef (scan r.toText.toList) r) : r.survives = true := by
  obtain ⟨hfilters, code, hkeyFigure⟩ := isNamed_iff.mp hnamed
  rw [survives_iff hkeyFigure]
  have haggregate := h.aggregate_eq_none
  rw [toText_eq] at h
  obtain ⟨aggregate, filters, keyFigure, optional⟩ := r
  obtain rfl : aggregate = none := haggregate
  obtain rfl : keyFigure = .code code := hkeyFigure
  cases hne : filters.isEmpty && !optional with
  | true =>
    obtain ⟨hnone, hrequired⟩ := Bool.and_eq_true_iff.mp hne
    obtain rfl : filters = [] := List.isEmpty_iff.mp hnone
    obtain rfl : optional = false := by simpa using hrequired
    have htext := toList_writtenWith_bare codeLiteral id code
    rw [bare] at htext
    rw [htext, scan_symbol rfl] at h
    exact ⟨fun _ hf ↦ absurd hf List.not_mem_nil, isCode_of_derivesRef_bare h⟩
  | false =>
    rw [toList_writtenWith_of_filtered hne, scan_symbol rfl] at h
    exact survives_of_derivesRef_filtered hne hfilters h

theorem CellRef.survives_of_ofText {r : CellRef} (hnamed : r.isNamed = true)
    (h : Expr.ofText r.toText = .ok (.cell r)) : r.survives = true := by
  rw [Expr.ofText_eq_ok_iff, tokensOf_eq_scan r.leads_toText r.closes_toText] at h
  have hbracket {r : CellRef} (haggregate : r.aggregate = none) :
      (scan r.toText.toList).head? = some (.symbol .leftBracket) := by
    have hhead := head?_writtenWith haggregate codeLiteral id
    rw [← toText_eq] at hhead
    obtain ⟨rest, htext⟩ := List.head?_eq_some_iff.mp hhead
    rw [htext, scan_symbol rfl]
    rfl
  obtain ⟨aggregate, filters, keyFigure, optional⟩ := r
  cases aggregate with
  | none =>
    have hhead := hbracket (r := ⟨none, filters, keyFigure, optional⟩) rfl
    have hprimary := h.primary_of_expr nofun nofun (by rw [hhead]; decide)
    exact survives_of_derivesRef hnamed (derivesRef_of_derives hhead hprimary)
  | some kind =>
    have htext : (toText ⟨some kind, filters, keyFigure, optional⟩).toList =
        kind.tag.toList ++ ':' :: (toText ⟨none, filters, keyFigure, optional⟩).toList := by
      rw [toText_eq, toText_eq, writtenWith_aggregate]
      simp
    rw [htext, scan_word_symbol (isIdentifier_tag kind) rfl rfl] at h
    have hprimary := h.primary_of_expr nofun nofun nofun
    have href := derivesRef_of_derives_aggregate (hbracket rfl) hprimary
    exact survives_of_derivesRef (r := ⟨none, filters, keyFigure, optional⟩) hnamed href

/-- A text in single quotes is cut off as itself only if there are no such quotes in it. -/
theorem not_mem_of_scan_name {name : String} (hs : Breaks s) (ht : referenceNameOf? t = some name)
    (h : scan ('\'' :: (name.toList ++ '\'' :: s)) = t :: ts) : '\'' ∉ name.toList := by
  rw [scan_cons_eq rfl, cutToken_of_isQuote (.inl rfl)] at h
  obtain ⟨rfl, -⟩ := List.cons.inj h
  generalize hvalue : (cutQuoted '\'' (name.toList ++ '\'' :: s)).value = value at ht
  cases value with
  | none => cases ht
  | some text =>
    obtain rfl := Option.some_inj.mp ht
    obtain ⟨hwritten, -⟩ := cutQuoted_eq_some_iff.mp (congrArg₂ Cut.mk hvalue rfl)
    rw [String.toList_ofList] at hwritten ⊢
    exact not_mem_of_append_eq hwritten fun c hc ↦ (isBreak_iff.mp (hs.of_mem_head? hc)).2.2.2.2.1

theorem ReferenceCall.survives_of_ofText {c : ReferenceCall} (hnamed : c.isNamed = true)
    (h : Expr.ofText c.toText = .ok (.reference c)) : c.survives = true := by
  have hcomma (s : List Char) : BeginsWithSymbol ([',', ' '] ++ s) := ⟨',', _, _, rfl, rfl, rfl⟩
  have hsep (s : List Char) : scan ([',', ' '] ++ s) = .symbol .comma :: scan s := by
    rw [List.cons_append, scan_symbol rfl, List.singleton_append, scan_blank rfl]
  have hparen : BeginsWithSymbol [')'] := ⟨')', _, _, rfl, rfl, rfl⟩
  have hends := hparen.filters_append [',', ' '] hcomma c.filters
  have hliteral : ("'" ++ c.name ++ "'").toList = '\'' :: (c.name.toList ++ ['\'']) := by
    simp
  rw [toText_eq, Expr.ofText_eq_ok_iff, tokensOf_eq_scan (c.leads _ _) (c.closes _ _),
    toList_writtenWith, scan_word_symbol (by decide) rfl rfl] at h
  obtain ⟨t, more, htokens, ht, hmore⟩ := (h.primary_of_expr nofun nofun nofun).reference_inv
  have hscan := (List.cons.inj htokens).2
  have hnone : '\'' ∉ c.name.toList := by
    rw [hliteral, List.cons_append, List.append_assoc, List.singleton_append] at hscan
    exact not_mem_of_scan_name hends.breaks ht hscan
  rw [Scans.name hnone _ hends.breaks] at hscan
  obtain ⟨hfilters, -⟩ := survives_of_scan_more [',', ' '] hcomma hsep (List.all_eq_true.mp hnamed)
    hparen hmore (List.cons.inj hscan).2
  exact survives_iff.mpr ⟨hfilters, hnone⟩

end

/-! ## Quoted literals -/

/-- **Quoted literals.** Whatever characters the codes of a reference have, it is read with exactly
these codes if they are written in quotes of either kind; so are a key figure right after an
aggregate and the name of a look-up. What has been read and is printed again is read back just if it
survives: each code that is printed without quotes is an identifier or a numeral, and the name of a
look-up has no single quotes. -/
theorem quoted_literals_read {quote : Char} (hquote : IsQuote quote) {r : CellRef}
    (hr : r.isNamed = true) {c : ReferenceCall} (hc : c.isNamed = true) (kind : Aggregate)
    (text : String) :
    (Expr.ofText (r.writtenWith (quoteWith quote) (quoteWith quote)) = .ok (.cell r) ∧
      Expr.ofText (kind.tag ++ ":" ++ quoteWith quote text) =
        .ok (.cell { CellRef.bare text with aggregate := some kind }) ∧
      Expr.ofText (c.writtenWith (quoteWith quote) (quoteWith quote)) = .ok (.reference c)) ∧
    (Expr.ofText r.toText = .ok (.cell r) ↔ r.survives = true) ∧
    (Expr.ofText c.toText = .ok (.reference c) ↔ c.survives = true) := by
  refine ⟨⟨?_, ?_, ?_⟩, ?_, ?_⟩
  · exact ofText_quoted_cell hquote hr
  · exact ofText_quoted_summand hquote kind text
  · exact ofText_quoted_reference hquote hc
  · exact ⟨CellRef.survives_of_ofText hr, CellRef.ofText_toText hr⟩
  · exact ⟨ReferenceCall.survives_of_ofText hc, ReferenceCall.ofText_toText hc⟩

theorem quoted_literals_read_webShop :
    let r : CellRef := ⟨some .sum, [⟨.extra "Channel", .code "Web 'shop'"⟩], .code "NET_COST", true⟩
    let c : ReferenceCall := ⟨"it's", [⟨.orgUnit, .loop⟩]⟩
    IsQuote '\'' ∧ (r.isNamed = true ∧ c.isNamed = true) ∧
      (Expr.ofText "SUM:[Channel='Web ''shop''']?.['NET_COST']" = .ok (.cell r) ∧
        Expr.ofText "AVG:'it''s'" = .ok (.cell ⟨some .avg, [], .code "it's", false⟩) ∧
        Expr.ofText "REF('it''s', OrgUnit=$LOOP)" = .ok (.reference c)) ∧
      Expr.ofText "SUM:[Channel='Web ''shop''']?.[NET_COST]" = .ok (.cell r) ∧
        Expr.ofText "REF('it's', OrgUnit=$LOOP)" ≠ .ok (.reference c) := by
  intro r c
  have hr : r.isNamed = true := by decide +kernel
  have hc : c.isNamed = true := by decide +kernel
  obtain ⟨⟨hcell, hsummand, hreference⟩, hprinted, hprintedName⟩ :=
    quoted_literals_read (.inl rfl) hr hc .avg "it's"
  have htextCell : r.writtenWith (quoteWith '\'') (quoteWith '\'') =
      "SUM:[Channel='Web ''shop''']?.['NET_COST']" := by decide +kernel
  have htextSummand : Aggregate.avg.tag ++ ":" ++ quoteWith '\'' "it's" = "AVG:'it''s'" := by
    decide +kernel
  have htextReference : c.writtenWith (quoteWith '\'') (quoteWith '\'') =
      "REF('it''s', OrgUnit=$LOOP)" := by decide +kernel
  have hshown : r.toText = "SUM:[Channel='Web ''shop''']?.[NET_COST]" := by decide +kernel
  have hshownName : c.toText = "REF('it's', OrgUnit=$LOOP)" := by decide +kernel
  rw [htextCell] at hcell
  rw [htextSummand] at hsummand
  rw [htextReference] at hreference
  rw [hshown] at hprinted
  rw [hshownName] at hprintedName
  refine ⟨.inl rfl, ⟨hr, hc⟩, ⟨hcell, hsummand, hreference⟩, ?_, ?_⟩
  · exact hprinted.mpr (by decide +kernel)
  · rw [ne_eq, hprintedName]
    decide +kernel

/-- Without quotes a key figure with blanks at its ends is another one, and one with a blank in it
is none. Neither is a value that begins with a digit but is no numeral, or a name with a single
quote, read back. -/
theorem quoted_literals_lost :
    (Expr.ofText "[' COST ']" = .ok (.cell (.bare " COST ")) ∧
      Expr.ofText (CellRef.bare " COST ").toText = .ok (.cell (.bare "COST"))) ∧
    (Expr.ofText "['NET COST']" = .ok (.cell (.bare "NET COST")) ∧
      Expr.ofText (CellRef.bare "NET COST").toText =
        .error (.parse 5 none (.unexpected (some (.word "COST")) .inCellReference))) ∧
    (let r : CellRef := ⟨none, [⟨.period, .code "1a"⟩], .code "COST", false⟩
     Expr.ofText "[Period='1a'].[COST]" = .ok (.cell r) ∧
      Expr.ofText r.toText =
        .error (.parse 9 none (.unexpected (some (.word "a")) (.expectedSymbol .rightBracket)))) ∧
    let c : ReferenceCall := ⟨"it's", []⟩
    Expr.ofText "REF('it''s')" = .ok (.reference c) ∧
      Expr.ofText c.toText =
        .error (.parse 8 none (.unexpected (some (.word "s")) (.expectedSymbol .rightParen))) :=
  ⟨⟨by decide +kernel, by decide +kernel⟩, ⟨by decide +kernel, by decide +kernel⟩,
    ⟨by decide +kernel, by decide +kernel⟩, by decide +kernel, by decide +kernel⟩

end PlanLedger.Formula
