import Mathlib.Logic.Relation
import PlanLedger.Formula.ReferenceValue
import PlanLedger.Proofs.Fact.Aggregate
import PlanLedger.Proofs.Formula.Faults

/-!
# Which evaluations are broken off

An operator that overflows is a fault with a text of its own. A total of stored values and a
rounding to tens, hundreds and so on have no such fault: where they leave the range of decimal
numbers, the evaluation is broken off. An evaluation comes to a part of an expression if the parts
that are evaluated before it have values and if no condition rules it out; and it is broken off
exactly if it comes to an aggregate or a rounding that leaves the range. The induction is on the
expression, one step of it is one step of the evaluation.
-/

namespace PlanLedger.Formula

open Decimal (divRoundEven)

/-! ## Steps that leave the range -/

/-- A cell stands for an aggregate, and the aggregate of the values it reads leaves the range. -/
def CellRef.LeavesRange (x : Context) (ref : CellRef) : Prop :=
  ∃ kind keyFigure filter, ref.aggregate = some kind ∧
    ref.resolve x.registry x.bindings = .ok (keyFigure, filter) ∧
    kind.LeavesRange ((x.store.currentOf keyFigure filter x.scope).map Fact.value)

/-- The second argument asks to round the first one to whole multiples of a power of ten, and the
nearest multiple has more than 96 bits. -/
def RoundLeavesRange (x : Context) (args : List Expr) : Prop :=
  ∃ number places d w, ∃ k : Nat, args = [number, places] ∧ number.evaluate x = .ok (.number d) ∧
    places.evaluate x = .ok (.number w) ∧ w.isWhole = true ∧ w.truncate = -k ∧ 1 ≤ k ∧ k ≤ 28 ∧
    2 ^ 96 ≤ divRoundEven d.mantissa (10 ^ (d.scale + k)) * 10 ^ k

/-- An expression of which the outermost part leaves the range. -/
def Expr.LeavesRange (x : Context) : Expr → Prop
  | .cell ref => ref.LeavesRange x
  | .call name args => Function.ofName? name = some (.eager .round) ∧ RoundLeavesRange x args
  | _ => False

section

variable {x : Context} {α : Type}

theorem avoids_ofRegistry (result : Except DimensionError α) :
    Avoids .outOfRange (ofRegistry result) := by
  cases result with
  | ok a => exact .ok a
  | error e => exact .error (by simp)

theorem avoids_ofCalculation (result : Except EvaluationFault α) :
    Avoids .outOfRange (ofCalculation result) := by
  cases result with
  | ok a => exact .ok a
  | error e => exact .error (by simp)

theorem DimFilter.avoids_resolve (r : Registry) (b : Bindings) (f : DimFilter) :
    Avoids .outOfRange (f.resolve r b) := by
  rw [resolve]
  split
  · exact .ok _
  · exact avoids_ofRegistry _
  · split
    · exact .ok _
    · exact .error (by simp)

theorem avoids_resolvePairs (r : Registry) (b : Bindings) (filters : List DimFilter) :
    Avoids .outOfRange (resolvePairs r b filters) :=
  .mapM (fun f ↦ (f.avoids_resolve r b).bind fun _ ↦ .ok _) filters

theorem CellRef.avoids_resolve (r : Registry) (b : Bindings) (ref : CellRef) :
    Avoids .outOfRange (ref.resolve r b) :=
  (DimFilter.avoids_resolve r b _).bind fun _ ↦
    ((avoids_resolvePairs r b _).bind fun _ ↦ .ok _).bind fun _ ↦ .ok _

theorem CellRef.evaluate_eq_outOfRange_iff {ref : CellRef} :
    ref.evaluate x = .error .outOfRange ↔ ref.LeavesRange x := by
  rw [evaluate, LeavesRange]
  cases hresolve : ref.resolve x.registry x.bindings with
  | error err =>
    refine iff_of_false (fun h ↦ ?_) ?_
    · rw [Except.error.inj h] at hresolve
      exact ref.avoids_resolve x.registry x.bindings hresolve
    · rintro ⟨_, _, _, _, h, _⟩
      cases h
  | ok found =>
    obtain ⟨keyFigure, filter⟩ := found
    rw [ok_bind]
    cases haggregate : ref.aggregate with
    | none =>
      refine iff_of_false (Avoids.ok _) ?_
      rintro ⟨_, _, _, h, _⟩
      cases h
    | some kind =>
      have hrange : x.store.aggregate? kind keyFigure filter x.scope = none ↔
          kind.LeavesRange ((x.store.currentOf keyFigure filter x.scope).map Fact.value) :=
        Aggregate.ofValues?_eq_none_iff
      dsimp only
      constructor
      · intro h
        refine ⟨kind, keyFigure, filter, rfl, rfl, hrange.mp ?_⟩
        split at h
        · cases h
        · assumption
      · rintro ⟨_, _, _, ⟨⟩, ⟨⟩, h⟩
        rw [hrange.mpr h]

/-! ### Rounding -/

theorem roundingDigits_eq_ok {v : Value} {digits : Int} :
    roundingDigits (some v) = .ok digits ↔ ∃ w, v = .number w ∧ w.isWhole = true ∧
      (-28 ≤ w.truncate ∧ w.truncate ≤ 28) ∧ w.truncate = digits := by
  cases v with
  | boolean b =>
    constructor
    · intro h
      cases h
    · rintro ⟨_, h, _⟩
      cases h
  | number w =>
    rw [roundingDigits, Value.toNumber, ok_bind]
    constructor
    · intro h
      split_ifs at h with hwhole hplaces
      cases h
      exact ⟨w, rfl, hwhole, hplaces, rfl⟩
    · rintro ⟨_, ⟨⟩, hwhole, hplaces, rfl⟩
      rw [if_pos hwhole, if_pos hplaces]
      rfl

theorem roundNumber_eq_outOfRange_iff {d : Decimal} {digits : Int} :
    roundNumber d digits = .error .outOfRange ↔
      digits < 0 ∧ roundToMultiple? d digits.natAbs = none := by
  rw [roundNumber]
  by_cases hdigits : 0 ≤ digits
  · rw [if_pos hdigits]
    exact iff_of_false (Avoids.ok _) fun h ↦ absurd h.1 (Int.not_lt.mpr hdigits)
  · rw [if_neg hdigits]
    cases roundToMultiple? d digits.natAbs with
    | some r => exact iff_of_false (Avoids.ok _) fun h ↦ Option.some_ne_none r h.2
    | none => exact iff_of_true rfl ⟨Int.not_le.mp hdigits, rfl⟩

theorem apply_eq_outOfRange_iff {f : EagerFunction} {values : List Value} :
    f.apply values = .error .outOfRange ↔ f = .round ∧ ∃ d digits,
      firstNumber .round values = .ok d ∧ roundingDigits values[1]? = .ok digits ∧ digits < 0 ∧
      roundToMultiple? d digits.natAbs = none := by
  cases f with
  | round =>
    rw [EagerFunction.apply]
    cases firstNumber .round values with
    | error fault =>
      refine iff_of_false (Avoids.error (by simp)) ?_
      rintro ⟨_, _, _, h, _⟩
      cases h
    | ok d =>
      cases roundingDigits values[1]? with
      | error fault =>
        refine iff_of_false (Avoids.error (by simp)) ?_
        rintro ⟨_, _, _, _, h, _⟩
        cases h
      | ok digits =>
        show (do return Value.number (← roundNumber d digits)) = Except.error _ ↔ _
        rw [bind_return_eq_error, roundNumber_eq_outOfRange_iff]
        constructor
        · rintro ⟨hdigits, hmultiple⟩
          exact ⟨rfl, d, digits, rfl, rfl, hdigits, hmultiple⟩
        · rintro ⟨-, _, _, ⟨⟩, ⟨⟩, hdigits, hmultiple⟩
          exact ⟨hdigits, hmultiple⟩
  | and => exact iff_of_false (Avoids.ok _) (by simp)
  | or => exact iff_of_false (Avoids.ok _) (by simp)
  | not => exact iff_of_false (Avoids.ok _) (by simp)
  | abs => exact iff_of_false (avoids_ofCalculation _) (by simp)
  | min => exact iff_of_false (avoids_ofCalculation _) (by simp)
  | max => exact iff_of_false (avoids_ofCalculation _) (by simp)

end

/-! ## The course of an evaluation -/

/-- The arguments of a case distinction that an evaluation comes to: a condition if those before it
do not hold, the value after it if it holds, and the last value if none does. -/
inductive Chooses (x : Context) : List Expr → Expr → Prop
  | condition (condition value : Expr) (rest : List Expr) :
      Chooses x (condition :: value :: rest) condition
  | value (condition value : Expr) (rest : List Expr) (v : Value)
      (decided : condition.evaluate x = .ok v) (holds : v.isTruthy = true) :
      Chooses x (condition :: value :: rest) value
  | later (condition value : Expr) (rest : List Expr) (v : Value) (arg : Expr)
      (decided : condition.evaluate x = .ok v) (fails : v.isTruthy = false)
      (chosen : Chooses x rest arg) : Chooses x (condition :: value :: rest) arg
  | otherwise (value : Expr) : Chooses x [value] value

/-- The parts of an expression that its evaluation comes to: operands and arguments after those
before them have values, and what a case distinction chooses. -/
inductive Expr.Needs (x : Context) : Expr → Expr → Prop
  | left (op : BinaryOp) (left right : Expr) : Needs x (.binary op left right) left
  | right (op : BinaryOp) (left right : Expr) (v : Value) (evaluated : left.evaluate x = .ok v) :
      Needs x (.binary op left right) right
  | operand (operand : Expr) : Needs x (.negate operand) operand
  | argument (name : String) (f : EagerFunction) (before : List Expr) (arg : Expr)
      (after : List Expr) (values : List Value) (found : Function.ofName? name = some (.eager f))
      (arity : checkCall (.eager f) (before ++ arg :: after) = .ok ())
      (evaluated : evaluateAll x before = .ok values) :
      Needs x (.call name (before ++ arg :: after)) arg
  | choice (name : String) (f : Function) (args : List Expr) (arg : Expr)
      (found : Function.ofName? name = some f) (distinction : f = .ifThenElse ∨ f = .caseWhen)
      (arity : checkCall f args = .ok ()) (chosen : Chooses x args arg) :
      Needs x (.call name args) arg

/-- An evaluation of an expression comes to another one, through any number of parts. -/
def Expr.Reaches (x : Context) : Expr → Expr → Prop := Relation.ReflTransGen (Needs x)

section

variable {x : Context} {args : List Expr}

theorem evaluateCase_eq_outOfRange_iff : evaluateCase x args = .error .outOfRange ↔
    ∃ arg, Chooses x args arg ∧ arg.evaluate x = .error .outOfRange := by
  induction args using List.twoStepInduction with
  | nil =>
    rw [evaluateCase]
    refine iff_of_false (Avoids.ok _) ?_
    rintro ⟨_, h, _⟩
    cases h
  | singleton value =>
    rw [evaluateCase]
    constructor
    · intro h
      exact ⟨value, .otherwise value, h⟩
    · rintro ⟨_, ⟨⟩, h⟩
      exact h
  | cons_cons condition value rest ih =>
    rw [evaluateCase, bind_eq_error]
    constructor
    · rintro (h | ⟨v, hv, h⟩)
      · exact ⟨condition, .condition _ _ _, h⟩
      · cases hholds : v.isTruthy with
        | true =>
          rw [hholds, if_pos rfl] at h
          exact ⟨value, .value _ _ _ v hv hholds, h⟩
        | false =>
          rw [hholds, if_neg Bool.false_ne_true] at h
          obtain ⟨arg, hchosen, h⟩ := ih.mp h
          exact ⟨arg, .later _ _ _ v arg hv hholds hchosen, h⟩
    · rintro ⟨arg, hchosen, h⟩
      cases hchosen with
      | condition => exact .inl h
      | value _ _ _ v hv hholds =>
        refine .inr ⟨v, hv, ?_⟩
        rw [hholds, if_pos rfl]
        exact h
      | later _ _ _ v _ hv hholds hchosen =>
        refine .inr ⟨v, hv, ?_⟩
        rw [hholds, if_neg Bool.false_ne_true]
        exact ih.mpr ⟨arg, hchosen, h⟩

/-! ### One step -/

/-- What an evaluation comes to next breaks it off, or its own step leaves the range. -/
def Expr.BrokenOffAtOnce (x : Context) (e : Expr) : Prop :=
  e.LeavesRange x ∨ ∃ part, e.Needs x part ∧ part.evaluate x = .error .outOfRange

theorem brokenOff_binary {op : BinaryOp} {left right : Expr} :
    (Expr.binary op left right).evaluate x = .error .outOfRange ↔
      (Expr.binary op left right).BrokenOffAtOnce x := by
  rw [Expr.evaluate, bind_eq_error]
  constructor
  · rintro (h | ⟨v, hv, h⟩)
    · exact .inr ⟨left, .left op left right, h⟩
    · rcases bind_eq_error.mp h with h | ⟨w, -, h⟩
      · exact .inr ⟨right, .right op left right v hv, h⟩
      · exact absurd h (avoids_ofCalculation _)
  · rintro (h | ⟨part, hneeds, h⟩)
    · exact h.elim
    · cases hneeds with
      | left => exact .inl h
      | right _ _ _ v hv => exact .inr ⟨v, hv, bind_eq_error.mpr (.inl h)⟩

theorem brokenOff_negate {operand : Expr} :
    (Expr.negate operand).evaluate x = .error .outOfRange ↔
      (Expr.negate operand).BrokenOffAtOnce x := by
  rw [Expr.evaluate, bind_eq_error]
  constructor
  · rintro (h | ⟨v, -, h⟩)
    · exact .inr ⟨operand, .operand operand, h⟩
    · exact absurd (bind_return_eq_error.mp h) (avoids_ofCalculation _)
  · rintro (h | ⟨part, hneeds, h⟩)
    · exact h.elim
    · cases hneeds
      exact .inl h

/-- A rounding whose arguments have values leaves the range exactly if the nearest multiple does. -/
theorem apply_round_eq_outOfRange_iff {values : List Value}
    (harity : checkCall (.eager .round) args = .ok ()) (hvalues : evaluateAll x args = .ok values) :
    EagerFunction.round.apply values = .error .outOfRange ↔ RoundLeavesRange x args := by
  obtain ⟨-, hmost⟩ := Bool.and_eq_true_iff.mp (checkCall_eq_ok_iff.mp harity)
  have hlength : args.length ≤ 2 := of_decide_eq_true hmost
  rw [evaluateAll_eq_mapM, mapM_eq_ok] at hvalues
  rw [apply_eq_outOfRange_iff]
  constructor
  · rintro ⟨-, d, digits, hfirst, hdigits, hnegative, hmultiple⟩
    -- Without a second argument the rounding is to whole numbers.
    match args, values, hvalues with
    | [], [], _ => cases hfirst
    | [_], [_], _ =>
      cases hdigits
      cases hnegative
    | number :: places :: rest, v :: w :: _, .cons hnumber (.cons hplaces _) =>
      obtain rfl : rest = [] := List.eq_nil_of_length_eq_zero (by simpa using hlength)
      obtain ⟨w, rfl, hwhole, hbounds, rfl⟩ := roundingDigits_eq_ok.mp hdigits
      cases v with
      | boolean b => cases hfirst
      | number n =>
        cases hfirst
        refine ⟨number, places, d, w, w.truncate.natAbs, rfl, hnumber, hplaces, hwhole, by omega,
          by omega, by omega, ?_⟩
        exact (roundToMultiple?_eq_none_iff (by omega)).mp hmultiple
  · rintro ⟨number, places, d, w, k, rfl, hnumber, hplaces, hwhole, htruncate, hk, hk28, hrange⟩
    match values, hvalues with
    | [v, v'], .cons hv (.cons hv' .nil) =>
      cases hnumber.symm.trans hv
      cases hplaces.symm.trans hv'
      refine ⟨rfl, d, w.truncate, rfl, ?_, by omega, ?_⟩
      · exact roundingDigits_eq_ok.mpr ⟨w, rfl, hwhole, ⟨by omega, by omega⟩, rfl⟩
      · rw [htruncate, Int.natAbs_neg, Int.natAbs_natCast]
        exact (roundToMultiple?_eq_none_iff hk28).mpr hrange

theorem brokenOff_eager {name : String} {f : EagerFunction}
    (hf : Function.ofName? name = some (.eager f)) (harity : checkCall (.eager f) args = .ok ()) :
    (Expr.call name args).evaluate x = .error .outOfRange ↔
      (Expr.call name args).BrokenOffAtOnce x := by
  rw [evaluate_eager hf harity, bind_eq_error]
  constructor
  · rintro (h | ⟨values, hvalues, h⟩)
    · rw [evaluateAll_eq_mapM] at h
      obtain ⟨before, arg, after, values, rfl, hvalues, harg⟩ := mapM_eq_error_iff.mp h
      rw [← evaluateAll_eq_mapM] at hvalues
      exact .inr ⟨arg, .argument name f before arg after values hf harity hvalues, harg⟩
    · obtain ⟨rfl, -⟩ := apply_eq_outOfRange_iff.mp h
      exact .inl ⟨hf, (apply_round_eq_outOfRange_iff harity hvalues).mp h⟩
  · rintro (⟨hround, hrange⟩ | ⟨part, hneeds, h⟩)
    · cases hf.symm.trans hround
      have hvalues : ∃ values, evaluateAll x args = .ok values := by
        obtain ⟨number, places, d, w, _, rfl, hnumber, hplaces, _⟩ := hrange
        exact ⟨[.number d, .number w], by simp [evaluateAll, hnumber, hplaces, ok_bind]⟩
      obtain ⟨values, hvalues⟩ := hvalues
      exact .inr ⟨values, hvalues, (apply_round_eq_outOfRange_iff harity hvalues).mpr hrange⟩
    · cases hneeds with
      | argument _ _ before _ after values _ _ hvalues =>
        rw [evaluateAll_eq_mapM] at hvalues ⊢
        exact .inl (mapM_eq_error_iff.mpr ⟨before, part, after, values, rfl, hvalues, h⟩)
      | choice _ f' _ _ hf' hdistinction =>
        cases hf.symm.trans hf'
        simp at hdistinction

theorem brokenOff_choice {name : String} {f : Function} (hf : Function.ofName? name = some f)
    (hdistinction : f = .ifThenElse ∨ f = .caseWhen) (harity : checkCall f args = .ok ()) :
    (Expr.call name args).evaluate x = .error .outOfRange ↔
      (Expr.call name args).BrokenOffAtOnce x := by
  rw [evaluate_distinction hf hdistinction harity, evaluateCase_eq_outOfRange_iff]
  constructor
  · rintro ⟨arg, hchosen, h⟩
    exact .inr ⟨arg, .choice name f args arg hf hdistinction harity hchosen, h⟩
  · rintro (⟨hround, -⟩ | ⟨part, hneeds, h⟩)
    · cases hf.symm.trans hround
      simp at hdistinction
    · cases hneeds with
      | argument _ _ _ _ _ _ hf' =>
        cases hf.symm.trans hf'
        simp at hdistinction
      | choice _ _ _ _ _ _ _ hchosen => exact ⟨part, hchosen, h⟩

/-- A call that names no function or has the wrong number of arguments is not broken off. -/
theorem brokenOff_unlawful {name : String}
    (h : ∀ f, Function.ofName? name = some f → checkCall f args ≠ .ok ()) :
    (Expr.call name args).evaluate x = .error .outOfRange ↔
      (Expr.call name args).BrokenOffAtOnce x := by
  refine iff_of_false (fun herr ↦ ?_) ?_
  · rw [Expr.evaluate] at herr
    split at herr
    · cases herr
    · rename_i f hf
      cases hcheck : checkCall f args with
      | ok _ => exact h f hf hcheck
      | error err =>
        rw [hcheck] at herr
        rw [Except.error.inj herr, checkCall] at hcheck
        split at hcheck <;> cases hcheck
  · rintro (⟨hround, number, places, d, w, k, rfl, -⟩ | ⟨part, hneeds, -⟩)
    · exact h _ hround rfl
    · cases hneeds with
      | argument _ f _ _ _ _ hf harity => exact h _ hf harity
      | choice _ f _ _ hf _ harity => exact h f hf harity

/-- **One step of an evaluation.** It is broken off exactly if its own step leaves the range, or if
the evaluation of a part that it comes to is broken off. -/
theorem brokenOff_iff_atOnce {e : Expr} :
    e.evaluate x = .error .outOfRange ↔ e.BrokenOffAtOnce x := by
  cases e with
  | binary op left right => exact brokenOff_binary
  | negate operand => exact brokenOff_negate
  | call name args =>
    by_cases hlawful : ∃ f, Function.ofName? name = some f ∧ checkCall f args = .ok ()
    · obtain ⟨f, hf, harity⟩ := hlawful
      cases f with
      | eager f => exact brokenOff_eager hf harity
      | ifThenElse => exact brokenOff_choice hf (.inl rfl) harity
      | caseWhen => exact brokenOff_choice hf (.inr rfl) harity
    · exact brokenOff_unlawful fun f hf harity ↦ hlawful ⟨f, hf, harity⟩
  | cell ref =>
    rw [Expr.evaluate, CellRef.evaluate_eq_outOfRange_iff]
    refine ⟨.inl, fun h ↦ h.elim id ?_⟩
    rintro ⟨_, hneeds, _⟩
    cases hneeds
  | _ =>
    rw [Expr.evaluate]
    refine iff_of_false (by simp) fun h ↦ h.elim id ?_
    rintro ⟨_, hneeds, _⟩
    cases hneeds

theorem Chooses.mem {arg : Expr} (h : Chooses x args arg) : arg ∈ args := by
  induction h with
  | condition => exact List.mem_cons_self
  | value => exact List.mem_cons_of_mem _ List.mem_cons_self
  | later _ _ _ _ _ _ _ _ ih => exact List.mem_cons_of_mem _ (List.mem_cons_of_mem _ ih)
  | otherwise => exact List.mem_cons_self

/-- What holds of an expression if it holds of all parts that its evaluation comes to holds of every
expression. -/
@[elab_as_elim]
theorem Expr.inductNeeds {P : Expr → Prop} (step : ∀ e, (∀ part, e.Needs x part → P part) → P e)
    (e : Expr) : P e := by
  induction e using inductLeaves with
  | leaf e hleaf =>
    refine step e fun part hneeds ↦ ?_
    cases hneeds <;> cases hleaf
  | binary op left right ihleft ihright =>
    refine step _ fun part hneeds ↦ ?_
    cases hneeds with
    | left => exact ihleft
    | right => exact ihright
  | negate operand ih =>
    refine step _ fun part hneeds ↦ ?_
    cases hneeds
    exact ih
  | call name args ih =>
    refine step _ fun part hneeds ↦ ih part ?_
    cases hneeds with
    | argument _ _ before _ after => exact List.mem_append_right before List.mem_cons_self
    | choice _ _ _ _ _ _ _ hchosen => exact hchosen.mem

/-- **Which evaluations are broken off.** The evaluation of an expression is broken off exactly if
it comes to an aggregate or a rounding that leaves the range. -/
theorem brokenOff_iff {e : Expr} :
    e.evaluate x = .error .outOfRange ↔ ∃ n, e.Reaches x n ∧ n.LeavesRange x := by
  constructor
  · intro h
    induction e using Expr.inductNeeds (x := x) with
    | step e ih =>
      rcases brokenOff_iff_atOnce.mp h with hrange | ⟨part, hneeds, h⟩
      · exact ⟨e, .refl, hrange⟩
      · obtain ⟨n, hreaches, hrange⟩ := ih part hneeds h
        exact ⟨n, .head hneeds hreaches, hrange⟩
  · rintro ⟨n, hreaches, hrange⟩
    induction hreaches using Relation.ReflTransGen.head_induction_on with
    | refl => exact brokenOff_iff_atOnce.mpr (.inl hrange)
    | head hneeds _ ih => exact brokenOff_iff_atOnce.mpr (.inr ⟨_, hneeds, ih⟩)

theorem evaluateScalar_eq_outOfRange_iff {e : Expr} {scale : Nat} :
    e.evaluateScalar x scale = .error .outOfRange ↔ ∃ n, e.Reaches x n ∧ n.LeavesRange x := by
  rw [Expr.evaluateScalar, bind_eq_error, brokenOff_iff]
  refine or_iff_left ?_
  rintro ⟨v, -, h⟩
  cases v <;> cases h

end

/-! ## Look-ups -/

theorem Catalog.avoids_reference (c : Catalog) (name : String) :
    Avoids .outOfRange (c.reference name) := by
  rw [reference]
  split
  · exact .ok _
  · exact .error (by simp)

namespace ReferenceContext

variable {x : ReferenceContext} {b : Bindings}

/-- The total of the values that a look-up reads leaves the range. -/
def LeavesRange (x : ReferenceContext) (b : Bindings) (call : ReferenceCall) : Prop :=
  ∃ data keyFigure filter upper, x.catalog.reference call.name = .ok data ∧
    x.registry.resolve .keyFigure data.keyFigure = .ok keyFigure ∧
    x.sourceFilter data = .ok filter ∧ resolveFilters x.registry b call.filters = .ok upper ∧
    data.kind.LeavesRange ((x.store.currentOf keyFigure (filter.merged upper) {}).map Fact.value)

theorem avoids_pin (f : Filter) (d : Dimension) (text : Option String) :
    Avoids .outOfRange (x.pin f d text) := by
  cases text with
  | none => exact .ok _
  | some text => exact (avoids_ofRegistry _).bind fun _ ↦ .ok _

theorem avoids_sourceFilter (data : ReferenceData) : Avoids .outOfRange (x.sourceFilter data) :=
  (Avoids.mapM (fun _ ↦ avoids_ofRegistry _) _).bind fun _ ↦
    (avoids_pin _ _ _).bind fun _ ↦ avoids_pin _ _ _

theorem value_eq_outOfRange_iff {call : ReferenceCall} :
    x.value b call = .error .outOfRange ↔ x.LeavesRange b call := by
  have hfilters (filters : List DimFilter) :
      Avoids .outOfRange (resolveFilters x.registry b filters) :=
    (avoids_resolvePairs _ _ _).bind fun _ ↦ .ok _
  rw [value, (Catalog.avoids_reference _ _).bind_eq_error_iff, LeavesRange]
  simp only [(avoids_ofRegistry _).bind_eq_error_iff, (avoids_sourceFilter _).bind_eq_error_iff,
    (hfilters _).bind_eq_error_iff, ofRegistry_eq_ok, exists_and_left]
  refine exists_congr fun data ↦ and_congr_right fun _ ↦ exists_congr fun keyFigure ↦
    and_congr_right fun _ ↦ exists_congr fun filter ↦ and_congr_right fun _ ↦
      exists_congr fun upper ↦ and_congr_right fun _ ↦ ?_
  rw [← Aggregate.ofValues?_eq_none_iff, Store.aggregate?]
  cases data.kind.ofValues? _ with
  | some value => exact iff_of_false (Avoids.ok value) (Option.some_ne_none value)
  | none => exact iff_of_true rfl rfl

def lookUp? : Expr → Option ReferenceCall
  | .reference call => some call
  | _ => none

/-- The look-ups in an expression, from left to right. -/
def lookUps (e : Expr) : List ReferenceCall := e.leaves.filterMap lookUp?

/-- Values are put in place of the look-ups from left to right, up to the first that has none. -/
theorem substitute_eq_error_iff {e : Expr} {err : FormulaError} :
    x.substitute b e = .error err ↔ (lookUps e).mapM (x.value b) = .error err := by
  rw [substitute, Expr.bindLeaves_eq_error_iff, lookUps]
  induction e.leaves generalizing err with
  | nil => exact iff_of_false (Avoids.ok _) (Avoids.ok _)
  | cons leaf rest ih =>
    rw [mapM_cons_eq_error]
    cases leaf with
    | reference call =>
      have hleaf {err : FormulaError} :
          x.substituteLeaf b (.reference call) = .error err ↔ x.value b call = .error err :=
        bind_return_eq_error
      have hcons : (Expr.reference call :: rest).filterMap lookUp? =
          call :: rest.filterMap lookUp? := rfl
      rw [hcons, mapM_cons_eq_error, ih, hleaf, exists_eq_ok_congr hleaf]
    | _ =>
      constructor
      · rintro (h | ⟨-, h⟩)
        · cases h
        · exact ih.mp h
      · intro h
        exact .inr ⟨⟨_, rfl⟩, ih.mpr h⟩

/-- **Which substitutions are broken off.** The look-ups of an expression are broken off exactly if
the total of one leaves the range and those before it have values. -/
theorem substitute_eq_outOfRange_iff {e : Expr} : x.substitute b e = .error .outOfRange ↔
    ∃ before call after values, lookUps e = before ++ call :: after ∧
      before.mapM (x.value b) = .ok values ∧ x.LeavesRange b call := by
  rw [substitute_eq_error_iff, mapM_eq_error_iff]
  simp only [value_eq_outOfRange_iff]

end ReferenceContext

end PlanLedger.Formula
