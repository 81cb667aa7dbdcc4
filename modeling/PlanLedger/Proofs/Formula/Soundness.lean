import PlanLedger.Proofs.Formula.References

/-!
# What is read is spelled by the grammar

Each reader of expressions takes up tokens that spell a phrase of its kind. The proofs call each
other as the readers do, and they end for the same reason.
-/

namespace PlanLedger.Formula

theorem Level.opOf?_eq_some {level : Level} {ts : List Lexeme} {op : BinaryOp}
    (h : level.opOf? ts = some op) :
    ∃ s o more, ts = ⟨.symbol s, o⟩ :: more ∧ level.op? s = some op := by
  unfold opOf? at h
  split at h
  · exact ⟨_, _, _, rfl, h⟩
  · cases h

theorem Level.height_le (level : Level) : level.height ≤ 8 := by cases level <;> decide

theorem startsWithKeyword_eq_true {k : Keyword} {ts : List Lexeme}
    (h : startsWithKeyword k ts = true) :
    ∃ t more, ts = t :: more ∧ isKeyword k t.token = true := by
  cases ts with
  | nil => cases h
  | cons t more => exact ⟨t, more, rfl, h⟩

theorem Function.checkArity_eq_ok {f : Function} {n : Nat} {u : Unit}
    (h : f.checkArity n = .ok u) : f.arity.admits n = true := by
  rw [checkArity] at h
  split at h
  · assumption
  · cases h

theorem Function.name_of_ofName? {word : String} {f : Function} (h : ofName? word = some f) :
    f.name = word.toUpper := by
  have hfound := List.find?_some (p := fun f ↦ name f == word.toUpper) h
  exact beq_iff_eq.mp hfound

theorem Keyword.ofCapitals?_text (k : Keyword) : ofCapitals? k.text.toUpper = some k := by
  cases k <;> decide +kernel

theorem parseConstant_eq_ok {word : String} {ts rest : List Lexeme} {e : Expr} {h}
    (hp : parseConstant word ts = .ok ⟨e, rest, h⟩) :
    rest = ts ∧ Derives .primary [.word word] e := by
  unfold parseConstant at hp
  split at hp
  · exact absurd hp failAt_ne_ok
  rename_i hkeyword
  split at hp
  · exact absurd hp failAt_ne_ok
  split at hp
  · rename_i hname
    cases hp
    refine ⟨rfl, .constant hname fun k hk ↦ ?_⟩
    rw [hk, k.ofCapitals?_text] at hkeyword
    cases hkeyword
  · exact absurd hp failAt_ne_ok

mutual

theorem parseLevel_sound {level : Level} {ts rest : List Lexeme} {e : Expr} {h}
    (hp : parseLevel level ts = .ok ⟨e, rest, h⟩) : Took ts rest (Derives (.level level) · e) := by
  rw [parseLevel] at hp
  obtain ⟨⟨left, rest₁, h₁⟩, hleft, hp⟩ := bind_eq_ok.mp hp
  obtain ⟨⟨e, rest₂, h₂⟩, hchain, hp⟩ := bind_eq_ok.mp hp
  cases hp
  obtain ⟨used, hts, hused⟩ := parseOperand_sound hleft
  exact parseChain_sound ⟨used, hts, .single hused⟩ hchain
termination_by 32 * ts.length + 2 * level.height + 1
decreasing_by all_goals omega

theorem parseOperand_sound {level : Level} {ts rest : List Lexeme} {e : Expr} {h}
    (hp : parseOperand level ts = .ok ⟨e, rest, h⟩) :
    Took ts rest (Derives (.operand level) · e) := by
  rw [parseOperand.eq_def] at hp
  cases level with
  | comparison =>
    obtain ⟨used, hts, hused⟩ := parseLevel_sound hp
    exact ⟨used, hts, .sum hused⟩
  | sum =>
    obtain ⟨used, hts, hused⟩ := parseLevel_sound hp
    exact ⟨used, hts, .product hused⟩
  | product =>
    obtain ⟨used, hts, hused⟩ := parsePower_sound hp
    exact ⟨used, hts, .power hused⟩
termination_by 32 * ts.length + 2 * level.height
decreasing_by all_goals simp only [*, Level.height]; omega

theorem parseChain_sound {level : Level} {left e : Expr} {before ts rest : List Lexeme} {h}
    (hleft : Took before ts (Derives (.level level) · left))
    (hp : parseChain level left ts = .ok ⟨e, rest, h⟩) :
    Took before rest (Derives (.level level) · e) := by
  rw [parseChain] at hp
  split at hp
  · rename_i op hop
    obtain ⟨⟨right, rest₁, h₁⟩, hright, hp⟩ := bind_eq_ok.mp hp
    obtain ⟨⟨e, rest₂, h₂⟩, hchain, hp⟩ := bind_eq_ok.mp hp
    cases hp
    have hlength := Level.length_tail_lt hop
    refine parseChain_sound ?_ hchain
    obtain ⟨right, hts, hused⟩ := parseOperand_sound hright
    obtain ⟨s, o, more, rfl, hop⟩ := Level.opOf?_eq_some hop
    obtain ⟨left, rfl, hleft⟩ := hleft
    exact ⟨left ++ ⟨.symbol s, o⟩ :: right, by simpa using hts,
      by simpa using .chain hleft hop hused⟩
  · cases hp
    exact hleft
termination_by 32 * ts.length
decreasing_by all_goals have := level.height_le; omega

theorem parsePower_sound {ts rest : List Lexeme} {e : Expr} {h}
    (hp : parsePower ts = .ok ⟨e, rest, h⟩) : Took ts rest (Derives .power · e) := by
  rw [parsePower] at hp
  obtain ⟨⟨base, rest₁, h₁⟩, hbase, hp⟩ := bind_eq_ok.mp hp
  have hlength : rest₁.tail.length < ts.length := by
    rw [List.length_tail]
    omega
  have htook := parseSigned_sound hbase
  dsimp only at hp
  split at hp
  · rename_i hcaret
    obtain ⟨o, more, rfl⟩ := startsWith_eq_true hcaret
    obtain ⟨⟨exponent, rest₂, h₂⟩, hexponent, hp⟩ := bind_eq_ok.mp hp
    cases hp
    obtain ⟨raised, hmore, hraised⟩ := parsePower_sound hexponent
    obtain ⟨used, rfl, hused⟩ := htook
    obtain rfl : more = raised ++ _ := hmore
    exact ⟨used ++ ⟨.symbol .caret, o⟩ :: raised, by simp, by simpa using .raise hused hraised⟩
  · cases hp
    obtain ⟨used, rfl, hused⟩ := htook
    exact ⟨used, rfl, .base hused⟩
termination_by 32 * ts.length + 10
decreasing_by all_goals omega

theorem parseSigned_sound {ts rest : List Lexeme} {e : Expr} {h}
    (hp : parseSigned ts = .ok ⟨e, rest, h⟩) : Took ts rest (Derives .signed · e) := by
  rw [parseSigned.eq_def] at hp
  split at hp
  · rename_i o more
    obtain ⟨⟨e, rest₁, h₁⟩, he, hp⟩ := bind_eq_ok.mp hp
    cases hp
    obtain ⟨used, rfl, hused⟩ := parseSigned_sound he
    exact ⟨⟨.symbol .minus, o⟩ :: used, rfl, .negate hused⟩
  · rename_i o more
    obtain ⟨⟨e, rest₁, h₁⟩, he, hp⟩ := bind_eq_ok.mp hp
    cases hp
    obtain ⟨used, rfl, hused⟩ := parseSigned_sound he
    exact ⟨⟨.symbol .plus, o⟩ :: used, rfl, .plus hused⟩
  · obtain ⟨used, hts, hused⟩ := parsePrimary_sound hp
    exact ⟨used, hts, .unsigned hused⟩
termination_by 32 * ts.length + 8
decreasing_by all_goals simp only [*, List.length_cons]; omega

theorem parsePrimary_sound {ts rest : List Lexeme} {e : Expr} {h}
    (hp : parsePrimary ts = .ok ⟨e, rest, h⟩) : Took ts rest (Derives .primary · e) := by
  rw [parsePrimary.eq_def] at hp
  split at hp
  · rename_i text o more
    split at hp
    · rename_i value hvalue
      cases hp
      exact ⟨[⟨.number text, o⟩], rfl, .number hvalue⟩
    · exact absurd hp failAt_ne_ok
  · rename_i o more
    obtain ⟨⟨e, rest₁, h₁⟩, he, hp⟩ := bind_eq_ok.mp hp
    obtain ⟨⟨_, rest₂, h₂⟩, hclose, hp⟩ := bind_eq_ok.mp hp
    cases hp
    obtain ⟨used, rfl, hused⟩ := parseLevel_sound he
    obtain ⟨o', rfl⟩ := expectSymbol_eq_ok hclose
    exact ⟨⟨.symbol .leftParen, o⟩ :: (used ++ [⟨.symbol .rightParen, o'⟩]), by simp,
      by simpa using .parens hused⟩
  · rename_i o more
    obtain ⟨⟨ref, rest₁, h₁⟩, href, hp⟩ := bind_eq_ok.mp hp
    cases hp
    obtain ⟨used, hts, hused⟩ := parseCellRef_eq_ok href
    exact ⟨used, hts, .cell hused⟩
  · rename_i name o more
    split at hp
    · exact absurd hp failAt_ne_ok
    · rename_i hname
      cases hp
      exact ⟨[⟨.dollar name, o⟩], rfl, .subFormula (Bool.eq_false_iff.mpr hname)⟩
  · rename_i word o more
    obtain ⟨⟨e, rest₁, h₁⟩, he, hp⟩ := bind_eq_ok.mp hp
    cases hp
    obtain ⟨used, rfl, hused⟩ := parseWord_sound he
    exact ⟨⟨.word word, o⟩ :: used, rfl, hused⟩
  · exact absurd hp failAt_ne_ok
  · exact absurd hp unexpectedAt_ne_ok
termination_by 32 * ts.length + 6
decreasing_by all_goals simp only [*, List.length_cons, Level.height]; omega

theorem parseWord_sound {word : String} {ts rest : List Lexeme} {e : Expr} {h}
    (hp : parseWord word ts = .ok ⟨e, rest, h⟩) :
    Took ts rest fun tokens ↦ Derives .primary (.word word :: tokens) e := by
  rw [parseWord.eq_def] at hp
  split at hp
  · rename_i kind hkind hcolon
    obtain ⟨⟨e, rest₁, h₁⟩, he, hp⟩ := bind_eq_ok.mp hp
    cases hp
    obtain ⟨o, more, rfl⟩ := startsWith_eq_true hcolon
    obtain ⟨ref, ⟨used, hmore, hused⟩, rfl⟩ := parseAggregate_eq_ok he
    obtain rfl : more = used ++ _ := hmore
    exact ⟨⟨.symbol .colon, o⟩ :: used, rfl, .aggregate hkind hused⟩
  split at hp
  · rename_i hcase
    obtain ⟨⟨_, rest₁, h₁⟩, hwhen, hp⟩ := bind_eq_ok.mp hp
    obtain ⟨⟨args, rest₂, h₂⟩, hargs, hp⟩ := bind_eq_ok.mp hp
    cases hp
    obtain ⟨used, rfl, hused⟩ := parseArms_sound hargs
    obtain ⟨t, ht, rfl⟩ := expectKeyword_eq_ok hwhen
    exact ⟨t :: used, rfl, .caseWhen (beq_iff_eq.mpr hcase) ht hused⟩
  rename_i hcase
  split at hp
  · rename_i hopen
    split at hp
    · rename_i href
      obtain ⟨⟨e, rest₁, h₁⟩, he, hp⟩ := bind_eq_ok.mp hp
      cases hp
      obtain ⟨o, more, rfl⟩ := startsWith_eq_true hopen
      obtain ⟨t, name, used, filters, o', hname, hmore, hused, rfl⟩ := parseReference_eq_ok he
      obtain rfl : more = _ := hmore
      exact ⟨⟨.symbol .leftParen, o⟩ :: t :: (used ++ [⟨.symbol .rightParen, o'⟩]), by simp,
        by simpa using .reference href hname hused⟩
    · split at hp
      · cases hp
      · rename_i f hf
        obtain ⟨⟨_, rest₁, h₁⟩, hopen, hp⟩ := bind_eq_ok.mp hp
        obtain ⟨⟨args, rest₂, h₂⟩, hargs, hp⟩ := bind_eq_ok.mp hp
        dsimp only at hp
        split at hp
        · rename_i harity
          cases hp
          obtain ⟨used, o', rfl, hused⟩ := parseArgs_sound hargs
          obtain ⟨o, rfl⟩ := expectSymbol_eq_ok hopen
          have hnot : f ≠ .caseWhen := by
            rintro rfl
            exact hcase (Function.name_of_ofName? hf).symm
          exact ⟨⟨.symbol .leftParen, o⟩ :: (used ++ [⟨.symbol .rightParen, o'⟩]), by simp,
            by simpa using .call hf hnot hused (Function.checkArity_eq_ok harity)⟩
        · cases hp
  · obtain ⟨rfl, hconstant⟩ := parseConstant_eq_ok hp
    exact ⟨[], rfl, hconstant⟩
termination_by 32 * ts.length + 4
decreasing_by all_goals omega

theorem parseArgs_sound {ts rest : List Lexeme} {args : List Expr} {h}
    (hp : parseArgs ts = .ok ⟨args, rest, h⟩) :
    ∃ used o, ts = used ++ ⟨.symbol .rightParen, o⟩ :: rest ∧
      Derives .args (used.map Lexeme.token) args := by
  rw [parseArgs.eq_def] at hp
  split at hp
  · rename_i o more
    cases hp
    exact ⟨[], o, rfl, .noArgs⟩
  · obtain ⟨⟨args, rest₁, h₁⟩, hargs, hp⟩ := bind_eq_ok.mp hp
    obtain ⟨⟨_, rest₂, h₂⟩, hclose, hp⟩ := bind_eq_ok.mp hp
    cases hp
    obtain ⟨used, rfl, hused⟩ := parseList_sound hargs
    obtain ⟨o, rfl⟩ := expectSymbol_eq_ok hclose
    exact ⟨used, o, rfl, .someArgs hused⟩
termination_by 32 * ts.length + 19
decreasing_by all_goals omega

theorem parseList_sound {ts rest : List Lexeme} {args : List Expr} {h}
    (hp : parseList ts = .ok ⟨args, rest, h⟩) : Took ts rest (Derives .list · args) := by
  rw [parseList] at hp
  obtain ⟨⟨e, rest₁, h₁⟩, he, hp⟩ := bind_eq_ok.mp hp
  have hlength : rest₁.tail.length < ts.length := by
    rw [List.length_tail]
    omega
  have htook := parseLevel_sound he
  dsimp only at hp
  split at hp
  · rename_i hcomma
    obtain ⟨o, after, rfl⟩ := startsWith_eq_true hcomma
    obtain ⟨⟨more, rest₂, h₂⟩, hmore, hp⟩ := bind_eq_ok.mp hp
    cases hp
    obtain ⟨used₂, hafter, hused₂⟩ := parseList_sound hmore
    obtain ⟨used, rfl, hused⟩ := htook
    obtain rfl : after = used₂ ++ _ := hafter
    exact ⟨used ++ ⟨.symbol .comma, o⟩ :: used₂, by simp, by simpa using .more hused hused₂⟩
  · cases hp
    obtain ⟨used, rfl, hused⟩ := htook
    exact ⟨used, rfl, .one hused⟩
termination_by 32 * ts.length + 18
decreasing_by
  · simp only [Level.height]; omega
  · omega

theorem parseArms_sound {ts rest : List Lexeme} {args : List Expr} {h}
    (hp : parseArms ts = .ok ⟨args, rest, h⟩) : Took ts rest (Derives .arms · args) := by
  rw [parseArms] at hp
  obtain ⟨⟨a, rest₁, h₁⟩, hcondition, hp⟩ := bind_eq_ok.mp hp
  obtain ⟨⟨_, rest₂, h₂⟩, hthen, hp⟩ := bind_eq_ok.mp hp
  obtain ⟨⟨b, rest₃, h₃⟩, hvalue, hp⟩ := bind_eq_ok.mp hp
  have hlength : rest₃.tail.length < ts.length := by
    rw [List.length_tail]
    omega
  have htook₁ := parseLevel_sound hcondition
  have htook₃ := parseLevel_sound hvalue
  dsimp only at hp
  split at hp
  · rename_i hwhen
    obtain ⟨w, after, rfl, hw⟩ := startsWithKeyword_eq_true hwhen
    obtain ⟨⟨more, rest₄, h₄⟩, hmore, hp⟩ := bind_eq_ok.mp hp
    cases hp
    obtain ⟨used₄, hafter, hused₄⟩ := parseArms_sound hmore
    obtain ⟨used₁, rfl, hused₁⟩ := htook₁
    obtain ⟨t, ht, rfl⟩ := expectKeyword_eq_ok hthen
    obtain ⟨used₃, rfl, hused₃⟩ := htook₃
    obtain rfl : after = used₄ ++ _ := hafter
    exact ⟨used₁ ++ t :: (used₃ ++ w :: used₄), by simp,
      by simpa using .moreArms hused₁ ht hused₃ hw hused₄⟩
  split at hp
  · rename_i helse
    obtain ⟨w, after, rfl, hw⟩ := startsWithKeyword_eq_true helse
    obtain ⟨⟨c, rest₄, h₄⟩, hotherwise, hp⟩ := bind_eq_ok.mp hp
    obtain ⟨⟨_, rest₅, h₅⟩, hend, hp⟩ := bind_eq_ok.mp hp
    cases hp
    obtain ⟨used₄, hafter, hused₄⟩ := parseLevel_sound hotherwise
    obtain ⟨used₁, rfl, hused₁⟩ := htook₁
    obtain ⟨t, ht, rfl⟩ := expectKeyword_eq_ok hthen
    obtain ⟨used₃, rfl, hused₃⟩ := htook₃
    obtain rfl : after = used₄ ++ _ := hafter
    obtain ⟨t', ht', rfl⟩ := expectKeyword_eq_ok hend
    exact ⟨used₁ ++ t :: (used₃ ++ w :: (used₄ ++ [t'])), by simp,
      by simpa using .elseArm hused₁ ht hused₃ hw hused₄ ht'⟩
  · obtain ⟨⟨_, rest₄, h₄⟩, hend, hp⟩ := bind_eq_ok.mp hp
    cases hp
    obtain ⟨used₁, rfl, hused₁⟩ := htook₁
    obtain ⟨t, ht, rfl⟩ := expectKeyword_eq_ok hthen
    obtain ⟨used₃, rfl, hused₃⟩ := htook₃
    obtain ⟨t', ht', rfl⟩ := expectKeyword_eq_ok hend
    exact ⟨used₁ ++ t :: (used₃ ++ [t']), by simp, by simpa using .lastArm hused₁ ht hused₃ ht'⟩
termination_by 32 * ts.length + 18
decreasing_by
  · simp only [Level.height]; omega
  · simp only [Level.height]; omega
  · simp only [Level.height]; omega
  · omega

end

end PlanLedger.Formula
