import PlanLedger.Proofs.Formula.Grammar
import PlanLedger.Proofs.Formula.Range

/-!
# Branches

A case distinction has the value of nested choices, one for each of its arms. What it does not come
to might as well be anything.

A place in an expression is given by the frames around it, one for each step from the whole to its
part. Whether an evaluation comes to the place is decided by what stands to the left of it in the
frames. If it does, it goes on with the value there, whatever it is the value of; and if it does
not, there is one result for all that may stand there.
-/

namespace PlanLedger.Formula

/-! ## Case distinctions as nested choices -/

/-- The arguments of the case distinction with some arms, which are pairs of a condition and a
value, and a last value that may be left out. -/
def caseArgs (arms : List (Expr × Expr)) (otherwise : Option Expr) : List Expr :=
  arms.flatMap (fun arm ↦ [arm.1, arm.2]) ++ otherwise.toList

/-- The choice of the first arm, with that of the other arms in its last branch, down to the last
value. -/
def nestedIf (arms : List (Expr × Expr)) (otherwise : Expr) : Expr :=
  arms.foldr (fun arm rest ↦ .call Function.ifThenElse.name [arm.1, arm.2, rest]) otherwise

section

variable {x : Context}

theorem caseArgs_cons (arm : Expr × Expr) (rest : List (Expr × Expr)) (otherwise : Option Expr) :
    caseArgs (arm :: rest) otherwise = arm.1 :: arm.2 :: caseArgs rest otherwise := rfl

theorem evaluate_ifThenElse (condition value otherwise : Expr) :
    (Expr.call Function.ifThenElse.name [condition, value, otherwise]).evaluate x =
      evaluateCase x [condition, value, otherwise] :=
  evaluate_distinction (Function.ofName?_name _) (.inl rfl) rfl

theorem evaluate_caseWhen {args : List Expr} (h : 2 ≤ args.length) :
    (Expr.call Function.caseWhen.name args).evaluate x = evaluateCase x args := by
  refine evaluate_distinction (Function.ofName?_name _) (.inr rfl) (checkCall_eq_ok_iff.mpr ?_)
  rw [Function.arity, Arity.admits, decide_eq_true h]
  rfl

theorem evaluateCase_caseArgs (arms : List (Expr × Expr)) (otherwise : Option Expr) :
    evaluateCase x (caseArgs arms otherwise) =
      (nestedIf arms (otherwise.getD (.number .zero))).evaluate x := by
  induction arms with
  | nil =>
    cases otherwise with
    | none => simp only [caseArgs, List.flatMap_nil, Option.toList_none, List.append_nil,
        nestedIf, List.foldr_nil, Option.getD_none, evaluateCase, Expr.evaluate]
    | some e => simp only [caseArgs, List.flatMap_nil, Option.toList_some, List.nil_append,
        nestedIf, List.foldr_nil, Option.getD_some, evaluateCase]
  | cons arm rest ih =>
    rw [nestedIf, List.foldr_cons, evaluate_ifThenElse, caseArgs_cons, evaluateCase, evaluateCase,
      evaluateCase, ih, nestedIf]

end

/-! ## Places -/

/-- What stands around a part of an expression, one step further out. -/
inductive Frame where
  | onLeft (op : BinaryOp) (right : Expr)
  | onRight (op : BinaryOp) (left : Expr)
  | negated
  | argument (name : String) (before after : List Expr)

/-- The expression with a part put into its frame. -/
def Frame.fill : Frame → Expr → Expr
  | onLeft op right, e => .binary op e right
  | onRight op left, e => .binary op left e
  | negated, e => .negate e
  | argument name before after, e => .call name (before ++ e :: after)

/-- The expression with a part put into its frames, from the outermost one to the innermost. -/
def surround (frames : List Frame) (e : Expr) : Expr := frames.foldr Frame.fill e

/-- A case distinction comes past its first arguments: a last condition among them holds, and the
ones before it do not. -/
inductive ComesPast (x : Context) : List Expr → Prop
  | start : ComesPast x []
  | holding (condition : Expr) (v : Value) (decided : condition.evaluate x = .ok v)
      (holds : v.isTruthy = true) : ComesPast x [condition]
  | failing (condition value : Expr) (rest : List Expr) (v : Value)
      (decided : condition.evaluate x = .ok v) (fails : v.isTruthy = false)
      (past : ComesPast x rest) : ComesPast x (condition :: value :: rest)

/-- An evaluation comes to what is put into a frame: the operands and arguments before it have
values, and a case distinction comes past those before it. -/
inductive Frame.Reached (x : Context) : Frame → Prop
  | onLeft (op : BinaryOp) (right : Expr) : Reached x (.onLeft op right)
  | onRight (op : BinaryOp) (left : Expr) (v : Value) (evaluated : left.evaluate x = .ok v) :
      Reached x (.onRight op left)
  | negated : Reached x .negated
  | argument (name : String) (f : EagerFunction) (before after : List Expr) (values : List Value)
      (found : Function.ofName? name = some (.eager f))
      (arity : f.arity.admits (before.length + (after.length + 1)) = true)
      (evaluated : evaluateAll x before = .ok values) : Reached x (.argument name before after)
  | choice (name : String) (f : Function) (before after : List Expr)
      (found : Function.ofName? name = some f) (distinction : f = .ifThenElse ∨ f = .caseWhen)
      (arity : f.arity.admits (before.length + (after.length + 1)) = true)
      (past : ComesPast x before) : Reached x (.argument name before after)

section

variable {x : Context} {before : List Expr} {frame : Frame} {frames : List Frame}

theorem checkCall_fill (f : Function) (before after : List Expr) (e : Expr) :
    checkCall f (before ++ e :: after) = .ok () ↔
      f.arity.admits (before.length + (after.length + 1)) = true := by
  rw [checkCall_eq_ok_iff, List.length_append, List.length_cons]

/-! ### Lists of arguments -/

theorem evaluateAll_append (before rest : List Expr) : evaluateAll x (before ++ rest) =
    evaluateAll x before >>= fun values ↦ (values ++ ·) <$> evaluateAll x rest := by
  simp only [evaluateAll_eq_mapM, List.mapM_append, map_eq_pure_bind]

theorem exists_evaluateAll_eq {values : List Value} (h : evaluateAll x before = .ok values)
    (after : List Expr) : ∃ k : Value → Except FormulaError (List Value),
      ∀ e, evaluateAll x (before ++ e :: after) = e.evaluate x >>= k := by
  refine ⟨fun v ↦ (fun rest ↦ values ++ v :: rest) <$> evaluateAll x after, fun e ↦ ?_⟩
  rw [evaluateAll_append, h, ok_bind, evaluateAll]
  simp only [map_eq_pure_bind, bind_assoc, pure_bind]

theorem evaluateAll_of_error {err : FormulaError} (h : evaluateAll x before = .error err)
    (rest : List Expr) : evaluateAll x (before ++ rest) = .error err := by
  rw [evaluateAll_append, h]
  rfl

/-- If a case distinction comes past the arguments before a place, it goes on from there. -/
theorem ComesPast.exists_evaluateCase_eq (h : ComesPast x before) (after : List Expr) :
    ∃ k : Value → Except FormulaError Value,
      ∀ e, evaluateCase x (before ++ e :: after) = e.evaluate x >>= k := by
  induction h with
  | start =>
    cases after with
    | nil => exact ⟨pure, fun e ↦ by rw [List.nil_append, evaluateCase, bind_pure]⟩
    | cons value rest => exact ⟨_, fun e ↦ by rw [List.nil_append, evaluateCase]⟩
  | holding condition v hdecided hholds =>
    refine ⟨pure, fun e ↦ ?_⟩
    rw [List.cons_append, List.nil_append, evaluateCase, hdecided, ok_bind, if_pos hholds,
      bind_pure]
  | failing condition value rest v hdecided hfails _ ih =>
    obtain ⟨k, hk⟩ := ih
    refine ⟨k, fun e ↦ ?_⟩
    rw [List.cons_append, List.cons_append, evaluateCase, hdecided, ok_bind, hfails,
      if_neg Bool.false_ne_true, hk]

/-- If a case distinction does not come past the arguments before a place, it does not matter what
stands there. -/
theorem evaluateCase_of_not_comesPast (h : ¬ ComesPast x before) (after : List Expr)
    (e e' : Expr) :
    evaluateCase x (before ++ e :: after) = evaluateCase x (before ++ e' :: after) := by
  induction before using List.twoStepInduction with
  | nil => exact absurd .start h
  | singleton condition =>
    simp only [List.cons_append, List.nil_append, evaluateCase]
    cases hdecided : condition.evaluate x with
    | error err => rfl
    | ok v =>
      have hfails : v.isTruthy ≠ true := fun hholds ↦ h (.holding condition v hdecided hholds)
      rw [ok_bind, ok_bind, if_neg hfails, if_neg hfails]
  | cons_cons condition value rest ih =>
    simp only [List.cons_append, evaluateCase]
    cases hdecided : condition.evaluate x with
    | error err => rfl
    | ok v =>
      rw [ok_bind, ok_bind]
      split_ifs with hholds
      · rfl
      · refine ih fun hpast ↦ h (.failing condition value rest v hdecided ?_ hpast)
        exact Bool.eq_false_of_not_eq_true hholds

/-! ### Frames -/

/-- **A frame that is reached.** The evaluation goes on with the value of what is put into it. -/
theorem Frame.Reached.exists_evaluate_eq (h : frame.Reached x) :
    ∃ k : Value → Except FormulaError Value, ∀ e,
      (frame.fill e).evaluate x = e.evaluate x >>= k := by
  cases h with
  | onLeft op right => exact ⟨_, fun e ↦ by rw [fill, Expr.evaluate]⟩
  | onRight op left v hv =>
    refine ⟨fun w ↦ ofCalculation (op.apply v w), fun e ↦ ?_⟩
    rw [fill, Expr.evaluate, hv, ok_bind]
  | negated => exact ⟨_, fun e ↦ by rw [fill, Expr.evaluate]⟩
  | argument name f before after values hf harity hvalues =>
    obtain ⟨k, hk⟩ := exists_evaluateAll_eq hvalues after
    refine ⟨fun v ↦ k v >>= f.apply, fun e ↦ ?_⟩
    rw [fill, evaluate_eager hf ((checkCall_fill _ before after e).mpr harity), hk, bind_assoc]
  | choice name f before after hf hdistinction harity hpast =>
    obtain ⟨k, hk⟩ := hpast.exists_evaluateCase_eq after
    refine ⟨k, fun e ↦ ?_⟩
    rw [fill, evaluate_distinction hf hdistinction ((checkCall_fill f before after e).mpr harity),
      hk]

/-- A call that is refused is refused for its name or for the number of its arguments. -/
theorem evaluate_call_of_unlawful {name : String} {args args' : List Expr}
    (h : ∀ f, Function.ofName? name = some f → f.arity.admits args.length = false)
    (hlength : args.length = args'.length) :
    (Expr.call name args).evaluate x = (Expr.call name args').evaluate x := by
  rw [Expr.evaluate, Expr.evaluate]
  cases hf : Function.ofName? name with
  | none => rfl
  | some f =>
    have hcheck : f.checkArity args.length = .error ⟨f, args.length⟩ := by
      rw [Function.checkArity, h f hf, if_neg Bool.false_ne_true]
    simp only [checkCall, ← hlength, hcheck]
    rfl

/-- **A frame that is not reached.** It does not matter what is put into it. -/
theorem Frame.evaluate_fill_of_not_reached (h : ¬ frame.Reached x) (e e' : Expr) :
    (frame.fill e).evaluate x = (frame.fill e').evaluate x := by
  cases frame with
  | onLeft op right => exact absurd (.onLeft op right) h
  | negated => exact absurd .negated h
  | onRight op left =>
    rw [fill, fill, Expr.evaluate, Expr.evaluate]
    cases hleft : left.evaluate x with
    | ok v => exact absurd (.onRight op left v hleft) h
    | error err => rfl
  | argument name before after =>
    rw [fill, fill]
    by_cases hlawful : ∃ f, Function.ofName? name = some f ∧
        f.arity.admits (before.length + (after.length + 1)) = true
    · obtain ⟨f, hf, harity⟩ := hlawful
      have hcheck (e : Expr) := (checkCall_fill f before after e).mpr harity
      have hdistinction (hf' : f = .ifThenElse ∨ f = .caseWhen) :
          (Expr.call name (before ++ e :: after)).evaluate x =
            (Expr.call name (before ++ e' :: after)).evaluate x := by
        rw [evaluate_distinction hf hf' (hcheck e), evaluate_distinction hf hf' (hcheck e')]
        exact evaluateCase_of_not_comesPast
          (fun hpast ↦ h (.choice name f before after hf hf' harity hpast)) after e e'
      cases f with
      | ifThenElse => exact hdistinction (.inl rfl)
      | caseWhen => exact hdistinction (.inr rfl)
      | eager f =>
        rw [evaluate_eager hf (hcheck e), evaluate_eager hf (hcheck e')]
        cases hbefore : evaluateAll x before with
        | ok values => exact absurd (.argument name f before after values hf harity hbefore) h
        | error err => rw [evaluateAll_of_error hbefore, evaluateAll_of_error hbefore]
    · refine evaluate_call_of_unlawful (fun f hf ↦ ?_) (by simp)
      rw [List.length_append, List.length_cons]
      exact Bool.eq_false_of_not_eq_true fun harity ↦ hlawful ⟨f, hf, harity⟩

/-! ### Any number of frames -/

theorem exists_evaluate_surround_eq (h : ∀ frame ∈ frames, frame.Reached x) :
    ∃ k : Value → Except FormulaError Value, ∀ e,
      (surround frames e).evaluate x = e.evaluate x >>= k := by
  induction frames with
  | nil => exact ⟨pure, fun e ↦ (bind_pure _).symm⟩
  | cons frame rest ih =>
    obtain ⟨hframe, hrest⟩ := List.forall_mem_cons.mp h
    obtain ⟨k, hk⟩ := hframe.exists_evaluate_eq
    obtain ⟨k', hk'⟩ := ih hrest
    refine ⟨fun v ↦ k' v >>= k, fun e ↦ ?_⟩
    rw [surround, List.foldr_cons, hk, ← surround, hk', bind_assoc]

theorem evaluate_surround_of_not_reached (h : ¬ ∀ frame ∈ frames, frame.Reached x)
    (e e' : Expr) : (surround frames e).evaluate x = (surround frames e').evaluate x := by
  induction frames with
  | nil => exact absurd (List.forall_mem_nil _) h
  | cons frame rest ih =>
    rw [surround, surround, List.foldr_cons, List.foldr_cons, ← surround, ← surround]
    by_cases hframe : frame.Reached x
    · obtain ⟨k, hk⟩ := hframe.exists_evaluate_eq
      have hrest : ¬ ∀ frame ∈ rest, frame.Reached x := fun hrest ↦
        h (List.forall_mem_cons.mpr ⟨hframe, hrest⟩)
      rw [hk, hk, ih hrest]
    · exact frame.evaluate_fill_of_not_reached hframe _ _

end

/-- **Branches.** A case distinction with at least one arm has the value of the nested choices of
its arms, or fails as they do; a missing last value is zero. And whatever the frames around a place
are: if an evaluation comes to the place, it goes on with the value there or with the error; and if
it does not, what stands there can be replaced by anything. -/
theorem case_nests_and_unreached_is_idle (x : Context) :
    (∀ (arms : List (Expr × Expr)) (otherwise : Option Expr), arms ≠ [] →
        (Expr.call Function.caseWhen.name (caseArgs arms otherwise)).evaluate x =
          (nestedIf arms (otherwise.getD (.number .zero))).evaluate x) ∧
      ∀ frames : List Frame,
        ((∀ frame ∈ frames, frame.Reached x) → ∃ k : Value → Except FormulaError Value,
          ∀ e, (surround frames e).evaluate x = e.evaluate x >>= k) ∧
        ((¬ ∀ frame ∈ frames, frame.Reached x) →
          ∀ e e', (surround frames e).evaluate x = (surround frames e').evaluate x) := by
  refine ⟨fun arms otherwise harms ↦ ?_, fun frames ↦
    ⟨exists_evaluate_surround_eq, evaluate_surround_of_not_reached⟩⟩
  obtain ⟨arm, rest, rfl⟩ := List.exists_cons_of_ne_nil harms
  have hlength : 2 ≤ (caseArgs (arm :: rest) otherwise).length := by
    rw [caseArgs_cons, List.length_cons, List.length_cons]
    omega
  rw [evaluate_caseWhen hlength, evaluateCase_caseArgs]

/-- The context without facts, dimensions and values. -/
private def bare : Context := ⟨∅, ⟨∅⟩, {}, ∅⟩

private def division : Expr := .binary (.arithmetic .divide) (.number .one) (.number .zero)

/-- `1 + CASE WHEN 0 THEN … WHEN 1 THEN 1 END`, where the first value is left open. -/
private def afterZero : List Frame :=
  [.onRight (.arithmetic .add) (.number .one),
    .argument "CASE" [.number .zero] [.number .one, .number .one]]

/-- The second arm of a case distinction is chosen, as by nested choices, so the division after the
first condition is as good as a number; after the second condition it is the error of the whole. -/
theorem case_nests_and_unreached_is_idle_division :
    (Expr.call "CASE" [.number .zero, division, .number .one, .number .one]).evaluate bare =
        (Expr.call "IF" [.number .zero, division,
          .call "IF" [.number .one, .number .one, .number .zero]]).evaluate bare ∧
      (¬ ∀ frame ∈ afterZero, frame.Reached bare) ∧
      (surround afterZero division).evaluate bare =
        (surround afterZero (.number .one)).evaluate bare ∧
      Frame.Reached bare (.argument "CASE" [.number .one] []) ∧
      (surround [.argument "CASE" [.number .one] []] division).evaluate bare =
        .error (.evaluation .divisionByZero) := by
  obtain ⟨hnested, hplaces⟩ := case_nests_and_unreached_is_idle bare
  have hzero : (Expr.number .zero).evaluate bare = .ok (.number .zero) := by decide +kernel
  have hone : (Expr.number .one).evaluate bare = .ok (.number .one) := by decide +kernel
  have hdivision : division.evaluate bare = .error (.evaluation .divisionByZero) := by
    decide +kernel
  have hidle : ¬ ∀ frame ∈ afterZero, frame.Reached bare := by
    intro h
    have hcase := Function.ofName?_name .caseWhen
    cases h _ (List.mem_cons_of_mem _ List.mem_cons_self) with
    | argument _ f _ _ _ hf => cases hf.symm.trans hcase
    | choice _ _ _ _ _ _ _ hpast =>
      cases hpast with
      | holding _ v hdecided hholds =>
        cases hzero.symm.trans hdecided
        cases hholds
  have hreached : Frame.Reached bare (.argument "CASE" [.number .one] []) :=
    .choice "CASE" .caseWhen _ _ (Function.ofName?_name .caseWhen) (.inr rfl) rfl
      (.holding _ _ hone rfl)
  have herror : (surround [.argument "CASE" [.number .one] []] division).evaluate bare =
      .error (.evaluation .divisionByZero) := by
    obtain ⟨k, hk⟩ := (hplaces _).1 (List.forall_mem_singleton.mpr hreached)
    rw [hk, hdivision]
    rfl
  exact ⟨hnested [(.number .zero, division), (.number .one, .number .one)] none (by simp), hidle,
    (hplaces afterZero).2 hidle _ _, hreached, herror⟩

end PlanLedger.Formula
