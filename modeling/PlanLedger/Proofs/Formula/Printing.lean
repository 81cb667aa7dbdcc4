import PlanLedger.Proofs.Formula.Spelling

/-!
# What is written is read back

The text of a printable expression is cut into tokens that spell it. All operators stand in
parentheses, so each operand is a phrase that binds at least as tightly as a sign, and a sign
needs no parentheses itself; a case distinction ends with a word of its own, so it takes in
nothing that follows. A text begins and ends with characters that are no blanks, so nothing of it
is lost when it is read.
-/

namespace PlanLedger.Formula

/-! ## Texts of calls -/

theorem Function.name_injective : Function.Injective Function.name := by
  intro f g h
  exact Option.some.inj ((ofName?_name f).symm.trans (h ▸ ofName?_name g))

theorem isIdentifier_name (f : Function) : isIdentifier f.name = true := by
  cases f with
  | eager f => cases f <;> decide
  | ifThenElse => decide
  | caseWhen => decide

theorem textsOf_eq_map (args : List Expr) : textsOf args = args.map Expr.toText := by
  induction args with
  | nil => rfl
  | cons e args ih => rw [textsOf, ih, List.map_cons]

/-- The text of an expression is cut into tokens that spell it without any operator around it. -/
def Expr.Spelled (e : Expr) : Prop := Spells e.toText.toList (Derives .signed · e)

namespace Derives

variable {tokens left right : List Token} {e a b : Expr}

theorem operand_of_signed (l : Level) (h : Derives .signed tokens e) :
    Derives (.operand l) tokens e := by
  cases l with
  | comparison => exact .sum (.single (.product (.single (.power (.base h)))))
  | sum => exact .product (.single (.power (.base h)))
  | product => exact .power (.base h)

theorem expr_of_signed (h : Derives .signed tokens e) : Derives .expr tokens e :=
  .single (h.operand_of_signed .comparison)

end Derives

theorem spells_list {e : Expr} {args : List Expr} (he : e.Spelled) (h : ∀ a ∈ args, a.Spelled) :
    Spells (e.toText.toList ++ args.flatMap fun a ↦ [',', ' '] ++ a.toText.toList)
      (Derives .list · (e :: args)) := by
  induction args generalizing e with
  | nil =>
    obtain ⟨tokens, hderives, hscans⟩ := he
    exact ⟨tokens, .one hderives.expr_of_signed, by simpa using hscans⟩
  | cons a args ih =>
    obtain ⟨tokens, hderives, hscans⟩ := he
    obtain ⟨more, hmore, hscansMore⟩ := ih (h a List.mem_cons_self)
      fun b hb ↦ h b (List.mem_cons_of_mem _ hb)
    refine ⟨tokens ++ .symbol .comma :: more, .more hderives.expr_of_signed hmore, ?_⟩
    rw [List.flatMap_cons, List.append_assoc]
    exact hscans.append (.symbol rfl hscansMore.blank) rfl

theorem spells_args {args : List Expr} (h : ∀ a ∈ args, a.Spelled) :
    Spells (", ".intercalate (textsOf args)).toList (Derives .args · args) := by
  rw [textsOf_eq_map, String.toList_intercalate, List.map_map]
  cases args with
  | nil => exact ⟨[], .noArgs, .nil⟩
  | cons e args =>
    obtain ⟨tokens, hderives, hscans⟩ := spells_list (h e List.mem_cons_self)
      fun a ha ↦ h a (List.mem_cons_of_mem _ ha)
    rw [List.map_cons, intercalate_cons, List.flatMap_map]
    exact ⟨tokens, .someArgs hderives, hscans⟩

theorem isIdentifier_text (k : Keyword) : isIdentifier k.text = true := by
  cases k <;> decide

theorem isKeyword_text (k : Keyword) : isKeyword k (.word k.text) = true := by
  cases k <;> decide +kernel

theorem Scans.keyword {s : List Char} {ts : List Token} (k : Keyword) (h : Scans s ts) :
    Scans (' ' :: (k.text.toList ++ ' ' :: s)) (.word k.text :: ts) :=
  ((Scans.word (isIdentifier_text k)).append h.blank rfl).blank

theorem Scans.arm {condition value s : List Char} {tokens tokens' ts : List Token}
    (hcondition : Scans condition tokens) (hvalue : Scans value tokens') (h : Scans s ts)
    (hbreak : Breaks s) :
    Scans (' ' :: ("WHEN".toList ++ ' ' ::
        (condition ++ ' ' :: ("THEN".toList ++ ' ' :: (value ++ s)))))
      (.word "WHEN" :: (tokens ++ .word "THEN" :: (tokens' ++ ts))) :=
  .keyword .whenWord (hcondition.append (.keyword .thenWord (hvalue.append h hbreak)) rfl)

theorem toList_caseText_cons (condition value : String) (rest : List String) :
    (caseText (condition :: value :: rest)).toList =
      ' ' :: ("WHEN".toList ++ ' ' :: (condition.toList ++
        ' ' :: ("THEN".toList ++ ' ' :: (value.toList ++ (caseText rest).toList)))) := by
  simp [caseText]

theorem breaks_caseText (texts : List String) : Breaks (caseText texts).toList := by
  match texts with
  | [] => rfl
  | [otherwise] =>
    simp only [caseText, String.toList_append, List.append_assoc]
    rfl
  | condition :: value :: rest =>
    rw [toList_caseText_cons]
    rfl

theorem spells_arms {a b : Expr} {args : List Expr} (ha : a.Spelled) (hb : b.Spelled)
    (h : ∀ e ∈ args, e.Spelled) :
    Spells (caseText (textsOf (a :: b :: args))).toList fun tokens ↦
      ∃ arms, tokens = .word "WHEN" :: arms ∧ Derives .arms arms (a :: b :: args) := by
  obtain ⟨condition, hcondition, hscansCondition⟩ := ha
  obtain ⟨value, hvalue, hscansValue⟩ := hb
  have hthen := isKeyword_text .thenWord
  have hend := isKeyword_text .endWord
  have hscansEnd : Scans (' ' :: "END".toList) [.word "END"] :=
    (Scans.word (isIdentifier_text .endWord)).blank
  rw [textsOf, textsOf, toList_caseText_cons]
  -- The arms come in pairs, with one value left over at most.
  match args with
  | [] =>
    exact ⟨_, ⟨_, rfl, .lastArm hcondition.expr_of_signed hthen hvalue.expr_of_signed hend⟩,
      hscansCondition.arm hscansValue hscansEnd rfl⟩
  | [otherwise] =>
    obtain ⟨tokens, hotherwise, hscansOtherwise⟩ := h otherwise List.mem_cons_self
    have helse := isKeyword_text .elseWord
    have htail : (caseText (textsOf [otherwise])).toList =
        ' ' :: ("ELSE".toList ++ ' ' :: (otherwise.toText.toList ++ ' ' :: "END".toList)) := by
      simp [textsOf, caseText]
    have hscansElse := (hscansOtherwise.append hscansEnd rfl).keyword .elseWord
    rw [htail]
    exact ⟨_, ⟨_, rfl, .elseArm hcondition.expr_of_signed hthen hvalue.expr_of_signed helse
      hotherwise.expr_of_signed hend⟩, hscansCondition.arm hscansValue hscansElse rfl⟩
  | c :: d :: more =>
    have hwhen := isKeyword_text .whenWord
    obtain ⟨_, ⟨arms, rfl, harms⟩, hscansArms⟩ := spells_arms (h c List.mem_cons_self)
      (h d (List.mem_cons_of_mem _ List.mem_cons_self)) fun e he ↦
        h e (List.mem_cons_of_mem _ (List.mem_cons_of_mem _ he))
    exact ⟨_, ⟨_, rfl, .moreArms hcondition.expr_of_signed hthen hvalue.expr_of_signed hwhen harms⟩,
      hscansCondition.arm hscansValue hscansArms (breaks_caseText _)⟩
termination_by args.length

theorem spells_call {f : Function} {args : List Expr} (harity : f.arity.admits args.length = true)
    (h : ∀ a ∈ args, a.Spelled) :
    Spells (Expr.call f.name args).toText.toList (Derives .primary · (.call f.name args)) := by
  by_cases hf : f = .caseWhen
  · subst hf
    match args, harity with
    | a :: b :: args, _ =>
      obtain ⟨_, ⟨arms, rfl, harms⟩, hscans⟩ := spells_arms (h a List.mem_cons_self)
        (h b (List.mem_cons_of_mem _ List.mem_cons_self)) fun e he ↦
          h e (List.mem_cons_of_mem _ (List.mem_cons_of_mem _ he))
      refine ⟨_, .caseWhen (isKeyword_text .caseWord) (isKeyword_text .whenWord) harms, ?_⟩
      rw [Expr.toText, if_pos rfl, String.toList_append]
      exact (Scans.word (isIdentifier_text .caseWord)).append hscans (breaks_caseText _)
  · obtain ⟨tokens, hargs, hscans⟩ := spells_args h
    have hname : f.name ≠ Function.caseWhen.name := fun hname ↦ hf (Function.name_injective hname)
    refine ⟨_, .call (Function.ofName?_name f) hf hargs harity, ?_⟩
    rw [Expr.toText, if_neg hname]
    simp only [String.toList_append, List.append_assoc]
    exact (Scans.word (isIdentifier_name f)).append (.symbol rfl hscans.rightParen) rfl

/-! ## Texts of other leaves -/

theorem isIdentifier_of_isConstantName {name : String} (h : isConstantName name = true) :
    isIdentifier name = true := by
  rw [isConstantName] at h
  rw [isIdentifier]
  cases hname : name.toList with
  | nil => simp [hname] at h
  | cons c rest =>
    simp only [hname, Bool.and_eq_true, List.all_eq_true, Bool.or_eq_true, beq_iff_eq] at h ⊢
    refine ⟨isWordStart_of_isUpper h.1, fun d hd ↦ ?_⟩
    obtain (hupper | hdigit) | rfl := h.2 d hd
    · exact isWordChar_of_isWordStart (isWordStart_of_isUpper hupper)
    · exact isWordChar_of_isDigit hdigit
    · decide

/-! ## Texts of operators -/

/-- The symbol of an operator that calculates. -/
def Arithmetic.symbol : Arithmetic → Symbol
  | add => .plus
  | subtract => .minus
  | multiply => .star
  | divide => .slash
  | power => .caret

def Comparison.symbol : Comparison → Symbol
  | equal => .equal
  | notEqual => .notEqual
  | less => .less
  | lessEqual => .lessEqual
  | greater => .greater
  | greaterEqual => .greaterEqual

def BinaryOp.symbol : BinaryOp → Symbol
  | arithmetic op => op.symbol
  | comparison op => op.symbol

theorem Scans.sign {s : List Char} {ts : List Token} (op : BinaryOp) (h : Scans s ts) :
    Scans (op.sign.toList ++ ' ' :: s) (.symbol op.symbol :: ts) := by
  cases op with
  | arithmetic op => cases op <;> exact .symbol rfl h.blank
  | comparison op => cases op <;> exact .cons rfl (fun _ ↦ rfl) h.blank

theorem Derives.binary {left right : List Token} {a b : Expr} (op : BinaryOp)
    (ha : Derives .signed left a) (hb : Derives .signed right b) :
    Derives .expr (left ++ .symbol op.symbol :: right) (.binary op a b) := by
  have chain {l : Level} {s : Symbol} (hop : l.op? s = some op) :
      Derives (.level l) (left ++ .symbol s :: right) (.binary op a b) :=
    .chain (.single (ha.operand_of_signed l)) hop (hb.operand_of_signed l)
  -- From the level of the operator the way leads up through the weaker levels.
  cases op with
  | arithmetic op =>
    cases op with
    | add => exact .single (.sum (chain rfl))
    | subtract => exact .single (.sum (chain rfl))
    | multiply => exact .single (.sum (.single (.product (chain rfl))))
    | divide => exact .single (.sum (.single (.product (chain rfl))))
    | power =>
      exact .single (.sum (.single (.product (.single (.power (.raise ha (.base hb)))))))
  | comparison op => cases op <;> exact chain rfl

theorem spelled_binary {left right : Expr} (op : BinaryOp) (hleft : left.Spelled)
    (hright : right.Spelled) : (Expr.binary op left right).Spelled := by
  obtain ⟨tokens, hderives, hscans⟩ := hleft
  obtain ⟨more, hmore, hscansMore⟩ := hright
  refine ⟨_, .unsigned (.parens (hderives.binary op hmore)), ?_⟩
  have htext : (Expr.binary op left right).toText.toList =
      '(' :: (left.toText.toList ++ ' ' ::
        (op.sign.toList ++ ' ' :: (right.toText.toList ++ [')']))) := by
    simp [Expr.toText]
  have hclosed := Scans.sign op hscansMore.rightParen
  rw [htext, List.append_assoc]
  exact .symbol rfl (hscans.append hclosed.blank rfl)

theorem spelled_negate {e : Expr} (h : e.Spelled) : (Expr.negate e).Spelled := by
  obtain ⟨tokens, hderives, hscans⟩ := h
  refine ⟨_, hderives.negate, ?_⟩
  rw [Expr.toText, String.toList_append]
  exact .symbol rfl hscans

/-! ## Texts of expressions -/

theorem Spells.spelled {e : Expr} (h : Spells e.toText.toList (Derives .primary · e)) :
    e.Spelled := by
  obtain ⟨tokens, hderives, hscans⟩ := h
  exact ⟨tokens, .unsigned hderives, hscans⟩

theorem exists_of_isPlain_call {name : String} {args : List Expr}
    (h : (Expr.call name args).isPlain = true) :
    ∃ f : Function, f.name = name ∧ f.arity.admits args.length = true := by
  rw [Expr.isPlain] at h
  split at h
  · rename_i f hf
    rw [Function.ofCapitals?] at hf
    exact ⟨f, by simpa using List.find?_some hf, h⟩
  · cases h

namespace Expr

theorem isPlain_subFormula_iff {name : String} : (subFormula name).isPlain = true ↔
    name.toList ≠ [] ∧ (∀ c ∈ name.toList, isWordChar c = true) ∧ isLoopName name = false := by
  simp [isPlain, and_assoc]

theorem isPlain_constant_iff {name : String} : (constant name).isPlain = true ↔
    isConstantName name = true ∧ ∀ k : Keyword, name ≠ k.text := by
  have hall (k : Keyword) : k ∈ Keyword.all := by cases k <;> decide
  simp [isPlain, hall]

theorem mem_nodes_self (e : Expr) : e ∈ e.nodes := by
  cases e <;> simp [nodes]

theorem isPlain_of_isPrintable {e : Expr} (h : e.isPrintable = true) : e.isPlain = true :=
  List.all_eq_true.mp h e e.mem_nodes_self

end Expr

mutual

theorem Expr.spelled (e : Expr) (h : e.isPrintable = true) : e.Spelled := by
  have hplain := isPlain_of_isPrintable h
  -- The parts of an expression are printable with it; leaves have no parts.
  cases e with
  | number value =>
    rw [isPlain, Bool.not_eq_true'] at hplain
    exact ⟨_, .unsigned (.number (Decimal.ofNumeral?_toText hplain)), Scans.number hplain⟩
  | cell r => exact (spells_cell_toText hplain).spelled
  | binary op left right =>
    rw [isPrintable, nodes, List.all_cons, List.all_append, Bool.and_eq_true, Bool.and_eq_true] at h
    exact spelled_binary op (left.spelled h.2.1) (right.spelled h.2.2)
  | negate operand =>
    rw [isPrintable, nodes, List.all_cons, Bool.and_eq_true] at h
    exact spelled_negate (operand.spelled h.2)
  | call name args =>
    rw [isPrintable, nodes, List.all_cons, Bool.and_eq_true] at h
    obtain ⟨f, rfl, harity⟩ := exists_of_isPlain_call hplain
    exact (spells_call harity (spelledAll args h.2)).spelled
  | subFormula name =>
    obtain ⟨hne, hword, hloop⟩ := isPlain_subFormula_iff.mp hplain
    refine ⟨_, .unsigned (.subFormula hloop), ?_⟩
    rw [toText, String.toList_append]
    exact Scans.dollar hne hword
  | constant name =>
    obtain ⟨hname, hkeyword⟩ := isPlain_constant_iff.mp hplain
    exact ⟨_, .unsigned (.constant hname hkeyword),
      Scans.word (isIdentifier_of_isConstantName hname)⟩
  | reference c => exact (spells_reference_toText hplain).spelled

theorem Expr.spelledAll (args : List Expr) (h : (nodesOfAll args).all isPlain = true) :
    ∀ e ∈ args, e.Spelled := by
  cases args with
  | nil => exact fun _ he ↦ absurd he List.not_mem_nil
  | cons e args =>
    rw [nodesOfAll, List.all_append, Bool.and_eq_true] at h
    exact List.forall_mem_cons.mpr ⟨e.spelled h.1, spelledAll args h.2⟩

end

/-! ## Ends of texts -/

theorem leads_of_isIdentifier {text : String} (h : isIdentifier text = true) :
    Leads text.toList := by
  obtain ⟨c, rest, htext, hc, -⟩ := isIdentifier_iff.mp h
  exact ⟨c, by rw [htext]; rfl, isBlank_eq_false_of_isWordChar (isWordChar_of_isWordStart hc)⟩

theorem CellRef.head?_writtenWith {r : CellRef} (h : r.aggregate = none)
    (filterLiteral literal : String → String) :
    (r.writtenWith filterLiteral literal).toList.head? = some '[' := by
  rw [writtenWith, h]
  split <;> simp

theorem CellRef.leads (filterLiteral literal : String → String) (r : CellRef) :
    Leads (r.writtenWith filterLiteral literal).toList := by
  cases haggregate : r.aggregate with
  | none => exact ⟨'[', head?_writtenWith haggregate _ _, rfl⟩
  | some kind =>
    have htag := leads_of_isIdentifier (isIdentifier_tag kind)
    rw [writtenWith, haggregate]
    split <;> simp only [String.toList_append, List.append_assoc] <;> exact htag.append _

theorem CellRef.closes (filterLiteral literal : String → String) (r : CellRef) :
    Closes (r.writtenWith filterLiteral literal).toList := by
  refine ⟨']', ?_, rfl⟩
  rw [writtenWith]
  split <;> simp [List.getLast?_cons]

theorem CellRef.leads_toText (r : CellRef) : Leads r.toText.toList := by
  rw [toText_eq]
  exact r.leads _ _

theorem CellRef.closes_toText (r : CellRef) : Closes r.toText.toList := by
  rw [toText_eq]
  exact r.closes _ _

theorem ReferenceCall.leads (filterLiteral literal : String → String) (c : ReferenceCall) :
    Leads (c.writtenWith filterLiteral literal).toList :=
  ⟨'R', by simp [writtenWith], rfl⟩

theorem ReferenceCall.closes (filterLiteral literal : String → String) (c : ReferenceCall) :
    Closes (c.writtenWith filterLiteral literal).toList :=
  ⟨')', by simp [writtenWith, List.getLast?_cons], rfl⟩

theorem closes_caseText (texts : List String) : Closes (caseText texts).toList := by
  have hend : Closes " END".toList := ⟨'D', rfl, rfl⟩
  match texts with
  | [] => exact hend
  | [otherwise] =>
    rw [caseText, String.toList_append]
    exact hend.append _
  | condition :: value :: rest =>
    rw [caseText, String.toList_append]
    exact (closes_caseText rest).append _

namespace Expr

theorem leads {e : Expr} (h : e.isPrintable = true) : Leads e.toText.toList := by
  have hplain := isPlain_of_isPrintable h
  cases e with
  | number value =>
    rw [isPlain, Bool.not_eq_true'] at hplain
    obtain ⟨c, rest, htext, hc⟩ := Decimal.exists_toList_toText hplain
    exact ⟨c, by rw [toText, htext]; rfl, isBlank_eq_false_of_isWordChar (isWordChar_of_isDigit hc)⟩
  | cell r => exact r.leads_toText
  | binary op left right => exact ⟨'(', by simp [toText], rfl⟩
  | negate operand => exact ⟨'-', by simp [toText], rfl⟩
  | call name args =>
    obtain ⟨f, rfl, -⟩ := exists_of_isPlain_call hplain
    have hname := leads_of_isIdentifier (isIdentifier_name f)
    rw [toText]
    split <;> simp only [String.toList_append, List.append_assoc] <;> exact hname.append _
  | subFormula name => exact ⟨'$', by simp [toText], rfl⟩
  | constant name =>
    exact leads_of_isIdentifier
      (isIdentifier_of_isConstantName (isPlain_constant_iff.mp hplain).1)
  | reference c =>
    rw [toText, ReferenceCall.toText_eq]
    exact c.leads _ _

theorem closes {e : Expr} (h : e.isPrintable = true) : Closes e.toText.toList := by
  have hplain := isPlain_of_isPrintable h
  -- Only the text of a sign ends as that of its operand.
  cases e with
  | number value =>
    rw [isPlain, Bool.not_eq_true'] at hplain
    obtain ⟨c, rest, htext, -⟩ := Decimal.exists_toList_toText hplain
    refine .of_forall (by rw [toText, htext]; exact List.cons_ne_nil c rest) fun d hd ↦ ?_
    obtain hdigit | rfl := Decimal.isDigit_or_eq_of_mem_toText hplain d hd
    · exact isBlank_eq_false_of_isWordChar (isWordChar_of_isDigit hdigit)
    · rfl
  | cell r => exact r.closes_toText
  | binary op left right => exact ⟨')', by simp [toText, List.getLast?_cons], rfl⟩
  | negate operand =>
    rw [isPrintable, nodes, List.all_cons, Bool.and_eq_true] at h
    rw [toText, String.toList_append]
    exact (closes h.2).append _
  | call name args =>
    rw [toText]
    split
    · rw [String.toList_append]
      exact (closes_caseText _).append _
    · exact ⟨')', by simp [List.getLast?_cons], rfl⟩
  | subFormula name =>
    obtain ⟨hne, hword, -⟩ := isPlain_subFormula_iff.mp hplain
    rw [toText, String.toList_append]
    exact .append _ (.of_forall hne fun c hc ↦ isBlank_eq_false_of_isWordChar (hword c hc))
  | constant name =>
    have hname := isIdentifier_of_isConstantName (isPlain_constant_iff.mp hplain).1
    obtain ⟨c, rest, htext, -⟩ := isIdentifier_iff.mp hname
    exact .of_forall (by rw [toText, htext]; exact List.cons_ne_nil c rest) fun d hd ↦
      isBlank_eq_false_of_isWordChar (isWordChar_of_mem_identifier hname d hd)
  | reference c =>
    rw [toText, ReferenceCall.toText_eq]
    exact c.closes _ _

end Expr

theorem tokensOf_eq_scan {text : String} (hleads : Leads text.toList)
    (hcloses : Closes text.toList) : tokensOf text = scan text.toList := by
  rw [tokensOf, lexemesOf, hleads.trim_eq hcloses]
  rfl

theorem tokensOf_eq {text : String} {ts : List Token} (hleads : Leads text.toList)
    (hcloses : Closes text.toList) (h : Scans text.toList ts) : tokensOf text = ts := by
  have hscan := h [] trivial
  rw [List.append_nil, scan_nil, List.append_nil] at hscan
  rw [tokensOf_eq_scan hleads hcloses, hscan]

/-! ## Reading what is written -/

theorem Expr.ofText_toText {e : Expr} (h : e.isPrintable = true) : ofText e.toText = .ok e := by
  obtain ⟨tokens, hderives, hscans⟩ := e.spelled h
  rw [ofText_eq_ok_iff, tokensOf_eq (leads h) (closes h) hscans]
  exact hderives.expr_of_signed

def Statement.toText (s : Statement) : String := s.target.toText ++ " = " ++ s.expr.toText

theorem Statement.ofText_toText {s : Statement} (haggregate : s.target.aggregate = none)
    (htarget : s.target.isPrintable = true) (h : s.expr.isPrintable = true) :
    ofText s.toText = .ok s := by
  obtain ⟨target, e⟩ := s
  obtain ⟨left, hleft, hscansLeft⟩ := CellRef.spells_toText haggregate htarget
  obtain ⟨right, hright, hscansRight⟩ := e.spelled h
  have htext : (toText ⟨target, e⟩).toList =
      target.toText.toList ++ ' ' :: '=' :: ' ' :: e.toText.toList := by
    simp [toText]
  have hleads : Leads (toText ⟨target, e⟩).toList := by
    rw [htext]
    exact target.leads_toText.append _
  have hcloses : Closes (toText ⟨target, e⟩).toList := by
    rw [htext]
    exact .append _ (.append [' ', '=', ' '] (Expr.closes h))
  have hscans : Scans (toText ⟨target, e⟩).toList (left ++ .symbol .equal :: right) := by
    rw [htext]
    exact hscansLeft.append (Scans.equal (by decide) hscansRight.blank).blank rfl
  rw [ofText_eq_ok_iff, tokensOf_eq hleads hcloses hscans]
  exact .mk hleft hright.expr_of_signed

/-- A formula is read with a target that has no aggregate. -/
theorem Statement.aggregate_of_ofText {text : String} {s : Statement} (h : ofText text = .ok s) :
    s.target.aggregate = none := by
  have hderives := ofText_eq_ok_iff.mp h
  generalize tokensOf text = tokens at hderives
  obtain ⟨htarget, -⟩ := hderives
  exact htarget.aggregate_eq_none

/-- **What is written is read back.** A printable expression is read from its own text, whatever
it is nested in: the parentheses around operators suffice, a sign needs none, and no two pieces
of a text run into each other. So is a printable formula, unless its target has an aggregate. -/
theorem printed_read_back :
    (∀ e : Expr, e.isPrintable = true → Expr.ofText e.toText = .ok e) ∧
      ∀ s : Statement, s.target.isPrintable = true → s.expr.isPrintable = true →
        (Statement.ofText s.toText = .ok s ↔ s.target.aggregate = none) :=
  ⟨fun _ ↦ Expr.ofText_toText, fun _ htarget he ↦
    ⟨Statement.aggregate_of_ofText, fun haggregate ↦
      Statement.ofText_toText haggregate htarget he⟩⟩

theorem printed_read_back_caseWhen :
    let e : Expr := .negate (.call "CASE" [
      .binary (.comparison .less) (.cell ⟨some .sum, [⟨.orgUnit, .loop⟩], .code "COST", true⟩)
        (.negate (.constant "LIMIT")),
      .subFormula "BASE", .reference ⟨"Budget", [⟨.period, .code "P01"⟩]⟩])
    let target : CellRef := ⟨none, [⟨.orgUnit, .loop⟩], .code "COST", false⟩
    e.isPrintable = true ∧ target.isPrintable = true ∧ Expr.ofText e.toText = .ok e ∧
      Statement.ofText (Statement.toText ⟨target, e⟩) = .ok ⟨target, e⟩ := by
  intro e target
  have he : e.isPrintable = true := by decide +kernel
  have htarget : target.isPrintable = true := by decide +kernel
  exact ⟨he, htarget, printed_read_back.1 e he,
    (printed_read_back.2 ⟨target, e⟩ htarget he).mpr rfl⟩

/-- A formula does not begin with the name of an aggregate, and the name that stands for the current
combination stands for no sub-formula, whatever the case of its letters. -/
theorem printed_not_read_back :
    (let s : Statement := ⟨⟨some .sum, [], .code "COST", false⟩, .constant "RATE"⟩
     s.target.isPrintable = true ∧ s.expr.isPrintable = true ∧
       Statement.ofText s.toText = .error (.parse 0 none .targetMissing)) ∧
      "loop".toList.all isWordChar = true ∧ "loop" ≠ "LOOP" ∧
        Expr.ofText (Expr.subFormula "loop").toText =
          .error (.parse 0 none .loopOutsideFilter) :=
  ⟨⟨by decide +kernel, by decide +kernel, by decide +kernel⟩, by decide, by decide,
    by decide +kernel⟩

end PlanLedger.Formula
