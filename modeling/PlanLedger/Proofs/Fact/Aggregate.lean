import PlanLedger.Proofs.Decimal.Quotient
import PlanLedger.Proofs.Decimal.Sums

/-!
# Aggregates in range

The least and the greatest of numbers are among them, and an average is no larger than a total; so
an aggregate can leave the range of decimal numbers only as its total is summed up. The total is a
running one: it leaves the range at some number if those before it have a total that does not.

As long as the running total is exact, so is the total; and the least and the greatest of numbers
are found among them by the order of their values.
-/

namespace PlanLedger

open Decimal (Representable)

/-- A total of numbers, from the first to the last, that leaves the range: the numbers up to some
place have a total, and with the next one it has more than 96 bits before the point. -/
def SumLeavesRange (values : List Decimal) : Prop :=
  ∃ first before next after total, values = first :: (before ++ next :: after) ∧
    before.foldlM Decimal.add? first = some total ∧ 2 ^ 96 ≤ total.wholeSum next

/-- An aggregate of numbers that leaves the range: their total does or, of an average, their
count. -/
def Aggregate.LeavesRange (kind : Aggregate) (values : List Decimal) : Prop :=
  match kind with
  | sum => SumLeavesRange values
  | avg => SumLeavesRange values ∨ 2 ^ 96 ≤ values.length
  | min | max => False

/-- A running result has no end exactly if there is none with the next element at some place. -/
theorem foldlM_eq_none {α β : Type} {f : β → α → Option β} {l : List α} {b : β} :
    l.foldlM f b = none ↔ ∃ before a after b', l = before ++ a :: after ∧
      before.foldlM f b = some b' ∧ f b' a = none := by
  constructor
  · intro h
    induction l generalizing b with
    | nil => cases h
    | cons a rest ih =>
      cases hfirst : f b a with
      | none => exact ⟨[], a, rest, b, rfl, rfl, hfirst⟩
      | some b₁ =>
        rw [List.foldlM_cons, hfirst] at h
        obtain ⟨before, a', after, b', rfl, hbefore, ha'⟩ := ih h
        refine ⟨a :: before, a', after, b', rfl, ?_, ha'⟩
        rw [List.foldlM_cons, hfirst]
        exact hbefore
  · rintro ⟨before, a, after, b', rfl, hbefore, ha⟩
    rw [List.foldlM_append, hbefore, Option.bind_eq_bind, Option.bind_some, List.foldlM_cons, ha]
    rfl

theorem sumLeavesRange_cons {v : Decimal} {rest : List Decimal} :
    SumLeavesRange (v :: rest) ↔ rest.foldlM Decimal.add? v = none := by
  rw [foldlM_eq_none]
  constructor
  · rintro ⟨first, before, next, after, total, heq, hbefore, hnext⟩
    obtain ⟨rfl, rfl⟩ := List.cons.inj heq
    exact ⟨before, next, after, total, rfl, hbefore, Decimal.add?_eq_none_iff.mpr hnext⟩
  · rintro ⟨before, next, after, total, rfl, hbefore, hnext⟩
    exact ⟨v, before, next, after, total, rfl, hbefore, Decimal.add?_eq_none_iff.mp hnext⟩

private theorem foldlM_some {f : Decimal → Decimal → Decimal} (values : List Decimal)
    (v : Decimal) : values.foldlM (fun a b ↦ some (f a b)) v ≠ none := by
  intro h
  obtain ⟨_, _, _, _, _, _, h⟩ := foldlM_eq_none.mp h
  cases h

private theorem ofInt?_count (n : Nat) : Decimal.ofInt? (n + 1 : Nat) =
    if h : n + 1 < 2 ^ 96 then some ⟨false, n + 1, 0, h, Nat.zero_le _⟩ else none := by
  rw [Decimal.ofInt?, Decimal.ofParts?, Int.natAbs_natCast,
    decide_eq_false (Int.not_lt.mpr (Int.natCast_nonneg _))]
  by_cases h : n + 1 < 2 ^ 96
  · rw [dif_pos ⟨h, Nat.zero_le _⟩, dif_pos h]
  · rw [dif_neg fun hboth ↦ h hboth.1, dif_neg h]

private theorem average_eq_none_iff {total : Option Decimal} {n : Nat} :
    (do (← total).div? (← Decimal.ofInt? (n + 1 : Nat))) = none ↔
      total = none ∨ 2 ^ 96 ≤ n + 1 := by
  cases total with
  | none => exact iff_of_true rfl (.inl rfl)
  | some d =>
    rw [ofInt?_count, Option.bind_eq_bind, Option.bind_some]
    by_cases h : n + 1 < 2 ^ 96
    · obtain ⟨q, _, _, hq, _⟩ := Decimal.exists_div? (a := d)
        (b := ⟨false, n + 1, 0, h, Nat.zero_le _⟩) rfl (Nat.zero_le _)
      rw [dif_pos h, Option.bind_some, hq]
      exact iff_of_false (Option.some_ne_none q)
        (not_or_intro (Option.some_ne_none d) (Nat.not_le_of_lt h))
    · rw [dif_neg h]
      exact iff_of_true rfl (.inr (Nat.le_of_not_lt h))

/-- **The range of aggregates.** Numbers have no aggregate exactly if it leaves the range. -/
theorem Aggregate.ofValues?_eq_none_iff {kind : Aggregate} {values : List Decimal} :
    kind.ofValues? values = none ↔ kind.LeavesRange values := by
  cases values with
  | nil =>
    rw [ofValues?]
    refine iff_of_false (Option.some_ne_none _) ?_
    cases kind with
    | sum =>
      rintro ⟨_, _, _, _, _, h, _⟩
      cases h
    | avg =>
      rintro (⟨_, _, _, _, _, h, _⟩ | h)
      · cases h
      · exact absurd h (by decide)
    | min => exact id
    | max => exact id
  | cons v rest =>
    cases kind with
    | sum =>
      show (rest.foldlM Decimal.add? v >>= pure) = none ↔ _
      rw [bind_pure, LeavesRange, sumLeavesRange_cons]
    | avg =>
      show (do (← rest.foldlM Decimal.add? v).div? (← Decimal.ofInt? _)) = none ↔ _
      rw [LeavesRange, sumLeavesRange_cons, average_eq_none_iff, List.length_cons]
    | min =>
      show (rest.foldlM (fun a b ↦ some (Decimal.min a b)) v >>= pure) = none ↔ _
      rw [bind_pure]
      exact iff_of_false (foldlM_some rest v) id
    | max =>
      show (rest.foldlM (fun a b ↦ some (Decimal.max a b)) v >>= pure) = none ↔ _
      rw [bind_pure]
      exact iff_of_false (foldlM_some rest v) id

/-! ## Zeros -/

theorem Aggregate.step?_of_isZero (kind : Aggregate) {a b : Decimal} (ha : a.isZero = true)
    (hb : b.isZero = true) : ∃ c, kind.step? a b = some c ∧ c.isZero = true := by
  cases kind with
  | sum => exact ⟨b, if_pos ha, hb⟩
  | avg => exact ⟨b, if_pos ha, hb⟩
  | min =>
    refine ⟨a.min b, rfl, ?_⟩
    rw [Decimal.min]
    split_ifs <;> assumption
  | max =>
    refine ⟨a.max b, rfl, ?_⟩
    rw [Decimal.max]
    split_ifs <;> assumption

theorem Aggregate.foldlM_step?_of_isZero (kind : Aggregate) {values : List Decimal} {v : Decimal}
    (hv : v.isZero = true) (h : ∀ d ∈ values, d.isZero = true) :
    ∃ total, values.foldlM kind.step? v = some total ∧ total.isZero = true := by
  induction values generalizing v with
  | nil => exact ⟨v, rfl, hv⟩
  | cons d rest ih =>
    obtain ⟨hd, hrest⟩ := List.forall_mem_cons.mp h
    obtain ⟨next, hnext, hzero⟩ := kind.step?_of_isZero hv hd
    rw [List.foldlM_cons, hnext]
    exact ih hzero hrest

/-- **Aggregates of zeros.** Zeros have an aggregate, which is zero. For an average their count has
to be a decimal number. -/
theorem Aggregate.ofValues?_of_isZero {kind : Aggregate} {values : List Decimal}
    (h : ∀ d ∈ values, d.isZero = true) (hcount : kind = .avg → values.length < 2 ^ 96) :
    ∃ v, kind.ofValues? values = some v ∧ v.isZero = true := by
  cases values with
  | nil => exact ⟨.zero, rfl, rfl⟩
  | cons v rest =>
    obtain ⟨hv, hrest⟩ := List.forall_mem_cons.mp h
    obtain ⟨total, htotal, hzero⟩ := kind.foldlM_step?_of_isZero hv hrest
    rw [ofValues?, htotal, Option.bind_eq_bind, Option.bind_some]
    cases kind with
    | avg =>
      -- A quotient of zero and a count is zero.
      have hfits : rest.length + 1 < 2 ^ 96 := hcount rfl
      have hquotient : total.div? ⟨false, rest.length + 1, 0, hfits, Nat.zero_le _⟩ =
          some .zero := by
        rw [Decimal.div?, if_neg (by simp [Decimal.isZero]), if_pos hzero]
      refine ⟨.zero, ?_, rfl⟩
      rw [ofInt?_count, dif_pos hfits]
      exact hquotient
    | sum => exact ⟨total, rfl, hzero⟩
    | min => exact ⟨total, rfl, hzero⟩
    | max => exact ⟨total, rfl, hzero⟩

/-! ## Exact aggregates -/

theorem SumsExactly.exists_ofValues? {values : List Decimal} (h : SumsExactly values) :
    ∃ total, Aggregate.sum.ofValues? values = some total ∧ total.toRat = exactSum values := by
  cases values with
  | nil => exact ⟨.zero, rfl, Decimal.toRat_zero⟩
  | cons v rest =>
    have hparts : ∀ part, part <+: rest → Representable (v.toRat + exactSum part) := by
      intro part hpart
      rw [← exactSum_cons]
      exact h (v :: part) (List.cons_prefix_cons.mpr ⟨rfl, hpart⟩)
    obtain ⟨total, htotal, hvalue⟩ := exists_foldlM_add? hparts
    refine ⟨total, ?_, by rw [hvalue, exactSum_cons]⟩
    show (rest.foldlM Decimal.add? v >>= pure) = some total
    rw [bind_pure, htotal]

/-- An aggregate of numbers is one of them, and the first one in an order of values. -/
def Aggregate.Picks (kind : Aggregate) (r : ℚ → ℚ → Prop) : Prop :=
  ∀ values, values ≠ [] →
    ∃ m ∈ values, kind.ofValues? values = some m ∧ ∀ d ∈ values, r m.toRat d.toRat

private theorem picks_of_choice {kind : Aggregate} {r : ℚ → ℚ → Prop} [IsPreorder ℚ r]
    {choose : Decimal → Decimal → Decimal}
    (hkind : ∀ v rest, kind.ofValues? (v :: rest) =
      rest.foldlM (fun a b ↦ some (choose a b)) v)
    (hchoice : ∀ a b, (choose a b = a ∨ choose a b = b) ∧
      r (choose a b).toRat a.toRat ∧ r (choose a b).toRat b.toRat) : kind.Picks r := by
  intro values hvalues
  obtain ⟨v, rest, rfl⟩ := List.exists_cons_of_ne_nil hvalues
  rw [hkind]
  induction rest generalizing v with
  | nil =>
    refine ⟨v, List.mem_cons_self, rfl, fun d hd ↦ ?_⟩
    rw [List.mem_singleton.mp hd]
    exact refl_of r _
  | cons w rest ih =>
    obtain ⟨hmem, hv, hw⟩ := hchoice v w
    obtain ⟨m, hm, hfold, hfirst⟩ := ih (choose v w) (List.cons_ne_nil _ _)
    have hchosen := hfirst _ List.mem_cons_self
    refine ⟨m, ?_, hfold, fun d hd ↦ ?_⟩
    · rcases List.mem_cons.mp hm with rfl | hm
      · rcases hmem with hmem | hmem <;> simp [hmem]
      · exact List.mem_cons_of_mem _ (List.mem_cons_of_mem _ hm)
    · rcases List.mem_cons.mp hd with rfl | hd
      · exact trans_of r hchosen hv
      · rcases List.mem_cons.mp hd with rfl | hd
        · exact trans_of r hchosen hw
        · exact hfirst d (List.mem_cons_of_mem _ hd)

theorem Aggregate.picks_min : Picks .min (· ≤ ·) := by
  refine picks_of_choice (fun v rest ↦ bind_pure _) fun a b ↦ ?_
  rw [Decimal.min]
  split_ifs with hbelow
  · exact ⟨.inr rfl, (Decimal.below_iff.mp hbelow).le, le_refl _⟩
  · rw [Decimal.below_iff, not_lt] at hbelow
    exact ⟨.inl rfl, le_refl _, hbelow⟩

theorem Aggregate.picks_max : Picks .max (· ≥ ·) := by
  refine picks_of_choice (fun v rest ↦ bind_pure _) fun a b ↦ ?_
  rw [Decimal.max]
  split_ifs with hbelow
  · exact ⟨.inr rfl, (Decimal.below_iff.mp hbelow).le, le_refl _⟩
  · rw [Decimal.below_iff, not_lt] at hbelow
    exact ⟨.inl rfl, le_refl _, hbelow⟩

end PlanLedger
