import PlanLedger.Planning.Distribute
import PlanLedger.Proofs.Decimal.Sums

/-!
# Settled shares

Shares are settled by adding what they miss to a total to one of them: to a share with the largest
absolute value, and of several to the last one. As long as every number that occurs is the value of
a decimal number, nothing is rounded once more, and the settled shares add up to the total exactly;
settled again, they stay as they are. What the shares miss is one of these numbers: it can have more
digits than the total and all shares have. That is so in particular if every number is on the grid
of the decimals that shares are rounded to.
-/

namespace PlanLedger

open Decimal (IsMultiple OnGrid Representable)

variable {places : Nat} {shares : List Decimal} {total : Decimal}

/-! ## Sums of shares -/

/-- Adding numbers from the first to the last is exact if all sums on the way are. -/
theorem SumsExactly.exists_sum? {values : List Decimal} (h : SumsExactly values) :
    ∃ sum, sum? values = some sum ∧ sum.toRat = exactSum values := by
  have hparts : ∀ part, part <+: values → Representable (Decimal.zero.toRat + exactSum part) := by
    intro part hpart
    rw [Decimal.toRat_zero, zero_add]
    exact h part hpart
  obtain ⟨sum, hsum, hvalue⟩ := exists_foldlM_add? hparts
  rw [Decimal.toRat_zero, zero_add] at hvalue
  exact ⟨sum, hsum, hvalue⟩

theorem exists_share?_of_eq {value base : Decimal} (hbase : base.toRat = total.toRat)
    (hnonzero : total.isZero = false) (hproduct : Representable (value.toRat * total.toRat))
    (hvalue : IsMultiple places value.toRat) :
    ∃ share, share? value total base places = some share ∧ share.toRat = value.toRat := by
  have hne : total.toRat ≠ 0 := by
    rw [Ne, ← Decimal.isZero_iff, hnonzero]
    exact Bool.false_ne_true
  have hbaseNonzero : base.isZero = false := by
    rwa [Bool.eq_false_iff, Ne, Decimal.isZero_iff, hbase]
  obtain ⟨product, hproduct, hproductValue⟩ := Decimal.mul?_exact hproduct
  have hquotient : product.toRat / base.toRat = value.toRat := by
    rw [hproductValue, hbase, mul_div_cancel_right₀ _ hne]
  have hexact : Representable (product.toRat / base.toRat) := by
    rw [hquotient]
    exact Decimal.representable_toRat value
  obtain ⟨quotient, hdiv, hquotientValue⟩ := Decimal.div?_exact hbaseNonzero hexact
  rw [hquotient] at hquotientValue
  rw [← hquotientValue] at hvalue ⊢
  refine ⟨quotient.toPlaces places, ?_, Decimal.toRat_toPlaces_of_isMultiple hvalue⟩
  rw [share?, hproduct, Option.bind_eq_bind, Option.bind_some, hdiv]
  rfl

/-! ## The largest share -/

/-- The place of the last of the numbers with the largest absolute value. -/
structure IsLastLargest (values : List Decimal) (i : Nat) (d : Decimal) : Prop where
  get : values[i]? = some d
  largest : ∀ other ∈ values, |other.toRat| ≤ |d.toRat|
  last : ∀ j other, values[j]? = some other → |other.toRat| = |d.toRat| → j ≤ i

/-- A number at the end of a list is its last largest one, unless it is below the one before. -/
private theorem IsLastLargest.append {values : List Decimal} {i : Nat} {best : Decimal}
    (h : IsLastLargest values i best) (d : Decimal) {next : Nat × Decimal}
    (hnext : next = if d.abs.below best.abs then (i, best) else (values.length, d)) :
    IsLastLargest (values ++ [d]) next.1 next.2 := by
  have hlength : i < values.length := (List.getElem?_eq_some_iff.mp h.get).1
  by_cases hbelow : d.abs.below best.abs = true
  · rw [if_pos hbelow] at hnext
    subst hnext
    rw [Decimal.below_iff, Decimal.toRat_abs, Decimal.toRat_abs] at hbelow
    refine ⟨?_, ?_, ?_⟩
    · rw [List.getElem?_append_left hlength]
      exact h.get
    · intro other hother
      rcases List.mem_append.mp hother with hother | hother
      · exact h.largest other hother
      · rw [List.mem_singleton.mp hother]
        exact hbelow.le
    · intro j other hj heq
      rcases Nat.lt_or_ge j values.length with hlt | hge
      · rw [List.getElem?_append_left hlt] at hj
        exact h.last j other hj heq
      · rw [List.getElem?_append_right hge] at hj
        obtain rfl : d = other := by
          have hmem := List.mem_of_getElem? hj
          exact (List.mem_singleton.mp hmem).symm
        exact absurd heq hbelow.ne
  · rw [if_neg hbelow] at hnext
    subst hnext
    rw [Decimal.below_iff, Decimal.toRat_abs, Decimal.toRat_abs, not_lt] at hbelow
    refine ⟨?_, ?_, ?_⟩
    · rw [List.getElem?_append_right (Nat.le_refl _), Nat.sub_self]
      rfl
    · intro other hother
      rcases List.mem_append.mp hother with hother | hother
      · exact (h.largest other hother).trans hbelow
      · rw [List.mem_singleton.mp hother]
    · intro j other hj _
      have hlt := (List.getElem?_eq_some_iff.mp hj).1
      rw [List.length_append, List.length_singleton] at hlt
      exact Nat.le_of_lt_succ hlt

theorem IsLastLargest.unique {values : List Decimal} {i j : Nat} {a b : Decimal}
    (ha : IsLastLargest values i a) (hb : IsLastLargest values j b) : i = j ∧ a = b := by
  have heq : |a.toRat| = |b.toRat| := le_antisymm (hb.largest a (List.mem_of_getElem? ha.get))
    (ha.largest b (List.mem_of_getElem? hb.get))
  have hij : i = j := Nat.le_antisymm (hb.last i a ha.get heq) (ha.last j b hb.get heq.symm)
  subst hij
  exact ⟨rfl, Option.some_inj.mp (ha.get.symm.trans hb.get)⟩

/-- **Loop invariant.** The search keeps the last largest number of those it has passed. -/
theorem isLastLargest_lastLargest {values : List Decimal} {i : Nat} {best : Decimal}
    (h : IsLastLargest values i best) (rest : List Decimal) :
    IsLastLargest (values ++ rest) (lastLargest (i, best) values.length rest).1
      (lastLargest (i, best) values.length rest).2 := by
  induction rest generalizing values i best with
  | nil => simpa [lastLargest] using h
  | cons d rest ih =>
    have hstep := ih (h.append d rfl)
    rw [List.append_assoc, List.length_append, List.length_singleton] at hstep
    exact hstep

theorem isLastLargest_cons (first : Decimal) (rest : List Decimal) :
    IsLastLargest (first :: rest) (lastLargest (0, first) 1 rest).1
      (lastLargest (0, first) 1 rest).2 := by
  have hfirst : IsLastLargest [first] 0 first := by
    refine ⟨rfl, ?_, ?_⟩
    · intro other hother
      rw [List.mem_singleton.mp hother]
    · intro j other hj _
      exact Nat.le_of_lt_succ (List.getElem?_eq_some_iff.mp hj).1
  exact isLastLargest_lastLargest hfirst rest

/-! ## Settling -/

theorem exactSum_set {i : Nat} {d : Decimal} (h : shares[i]? = some d) (d' : Decimal) :
    exactSum (shares.set i d') = exactSum shares - d.toRat + d'.toRat := by
  induction shares generalizing i with
  | nil => cases h
  | cons first rest ih =>
    cases i with
    | zero =>
      obtain rfl : first = d := Option.some_inj.mp h
      rw [List.set_cons_zero, exactSum_cons, exactSum_cons]
      ring
    | succ i =>
      rw [List.set_cons_succ, exactSum_cons, exactSum_cons, ih h]
      ring

/-- All numbers that occur when shares are settled are the values of numbers: the sums of shares
from the first on, what the shares miss to the total, and the settled share. -/
structure SettlesExactly (shares : List Decimal) (total : Decimal) : Prop where
  sums : SumsExactly shares
  missing : Representable (total.toRat - exactSum shares)
  settled : ∀ i share, IsLastLargest shares i share →
    Representable (share.toRat + (total.toRat - exactSum shares))

/-- There is one share to settle at most, so that settling is exact can be decided. -/
theorem settlesExactly_iff : SettlesExactly shares total ↔
    SumsExactly shares ∧ Representable (total.toRat - exactSum shares) ∧
      ∀ first rest, shares = first :: rest → Representable
        ((lastLargest (0, first) 1 rest).2.toRat + (total.toRat - exactSum shares)) := by
  constructor
  · rintro ⟨hsums, hmissing, hsettled⟩
    refine ⟨hsums, hmissing, ?_⟩
    rintro first rest rfl
    exact hsettled _ _ (isLastLargest_cons first rest)
  · rintro ⟨hsums, hmissing, hsettled⟩
    refine ⟨hsums, hmissing, fun i share hlargest ↦ ?_⟩
    obtain ⟨first, rest, rfl⟩ :=
      List.exists_cons_of_ne_nil (List.ne_nil_of_mem (List.mem_of_getElem? hlargest.get))
    obtain ⟨-, rfl⟩ := (isLastLargest_cons first rest).unique hlargest
    exact hsettled first rest rfl

instance : Decidable (SettlesExactly shares total) :=
  match shares with
  | [] => decidable_of_iff
    (SumsExactly [] ∧ Representable (total.toRat - exactSum [])) (by simp [settlesExactly_iff])
  | first :: rest => decidable_of_iff
    (SumsExactly (first :: rest) ∧ Representable (total.toRat - exactSum (first :: rest)) ∧
      Representable ((lastLargest (0, first) 1 rest).2.toRat +
        (total.toRat - exactSum (first :: rest)))) (by simp [settlesExactly_iff])

/-- **Settled shares reach the total.** If all numbers that occur are the values of numbers,
settling changes the last largest share at most, and afterwards the shares add up to the total. -/
theorem SettlesExactly.reaches_total (hne : shares ≠ []) (h : SettlesExactly shares total) :
    ∃ i share settled, IsLastLargest shares i share ∧ settle shares total = shares.set i settled ∧
      exactSum (settle shares total) = total.toRat := by
  obtain ⟨first, rest, rfl⟩ := List.exists_cons_of_ne_nil hne
  obtain ⟨sum, hsum, hsumValue⟩ := h.sums.exists_sum?
  have hmissing := h.missing
  rw [← hsumValue] at hmissing
  obtain ⟨residue, hresidue, hvalue⟩ := Decimal.sub?_exact hmissing
  have hfound : residue? (first :: rest) total = some residue := by
    rw [residue?, hsum]
    exact hresidue
  have hlargest := isLastLargest_cons first rest
  simp only [settle, hfound]
  generalize lastLargest (0, first) 1 rest = best at hlargest ⊢
  by_cases hzero : residue.isZero = true
  · -- Nothing is missing, so the largest share stays.
    rw [if_pos hzero]
    rw [Decimal.isZero_iff.mp hzero, hsumValue] at hvalue
    refine ⟨best.1, best.2, best.2, hlargest, ?_, by linarith⟩
    obtain ⟨hlt, heq⟩ := List.getElem?_eq_some_iff.mp hlargest.get
    rw [← heq, List.set_getElem_self]
  · rw [if_neg hzero]
    rw [hsumValue] at hvalue
    have hsettled := h.settled best.1 best.2 hlargest
    rw [← hvalue] at hsettled
    obtain ⟨adjusted, hadjusted, hadjustedValue⟩ := Decimal.add?_exact hsettled
    rw [hadjusted]
    refine ⟨best.1, best.2, adjusted, hlargest, rfl, ?_⟩
    rw [exactSum_set hlargest.get, hadjustedValue, hvalue]
    ring

theorem SettlesExactly.isMultiple_of_mem (h : SettlesExactly shares total)
    (hshares : ∀ share ∈ shares, IsMultiple places share.toRat)
    (htotal : IsMultiple places total.toRat) :
    ∀ value ∈ settle shares total, IsMultiple places value.toRat := by
  by_cases hne : shares = []
  · subst hne
    exact hshares
  obtain ⟨i, share, settled, hlargest, hset, hsum⟩ := h.reaches_total hne
  intro value hvalue
  rw [hset] at hvalue hsum
  rcases List.mem_or_eq_of_mem_set hvalue with hmem | rfl
  · exact hshares value hmem
  · rw [exactSum_set hlargest.get] at hsum
    have hadjusted : value.toRat = share.toRat + (total.toRat - exactSum shares) := by linarith
    rw [hadjusted]
    exact (hshares share (List.mem_of_getElem? hlargest.get)).add
      (htotal.sub (isMultiple_exactSum hshares))

theorem settle_eq_self (hsums : SumsExactly shares) (h : exactSum shares = total.toRat) :
    settle shares total = shares := by
  obtain ⟨sum, hsum, hvalue⟩ := hsums.exists_sum?
  have hmissing : Representable (total.toRat - sum.toRat) := by
    rw [hvalue, h, sub_self, ← Decimal.toRat_zero]
    exact Decimal.representable_toRat _
  obtain ⟨residue, hresidue, hzero⟩ := Decimal.sub?_exact hmissing
  rw [hvalue, h, sub_self, ← Decimal.isZero_iff] at hzero
  have hfound : residue? shares total = some residue := by
    rw [residue?, hsum]
    exact hresidue
  cases shares with
  | nil => rfl
  | cons first rest =>
    simp only [settle, hfound]
    exact if_pos hzero

/-! ### Settling on a grid -/

/-- All numbers that occur when shares are settled are on the grid of their decimals: the shares,
their sums from the first on, the total, what the shares miss to it, and the settled share. -/
structure SettlesOnGrid (places : Nat) (shares : List Decimal) (total : Decimal) : Prop where
  each : ∀ share ∈ shares, OnGrid places share.toRat
  sums : ∀ part, part <+: shares → OnGrid places (exactSum part)
  whole : OnGrid places total.toRat
  missing : OnGrid places (total.toRat - exactSum shares)
  settled : ∀ i share, IsLastLargest shares i share →
    OnGrid places (share.toRat + (total.toRat - exactSum shares))

/-- What is on the grid has a value, as no number has more decimals than the grid. -/
theorem SettlesOnGrid.settlesExactly (htotal : total.scale ≤ places)
    (hshares : ∀ share ∈ shares, share.scale ≤ places) (h : SettlesOnGrid places shares total) :
    SettlesExactly shares total := by
  have hmultiple (d : Decimal) (hd : d.scale ≤ places) :
      IsMultiple (Nat.min places 28) d.toRat :=
    Decimal.isMultiple_toRat (Nat.le_min.mpr ⟨hd, d.scale_le⟩)
  have heach : ∀ share ∈ shares, IsMultiple (Nat.min places 28) share.toRat :=
    fun share hshare ↦ hmultiple share (hshares share hshare)
  have hmissing := (hmultiple total htotal).sub (isMultiple_exactSum heach)
  refine ⟨fun part hpart ↦ ?_, h.missing.representable hmissing, fun i share hlargest ↦ ?_⟩
  · exact (h.sums part hpart).representable
      (isMultiple_exactSum fun share hshare ↦ heach share (hpart.subset hshare))
  · exact (h.settled i share hlargest).representable
      ((heach share (List.mem_of_getElem? hlargest.get)).add hmissing)

/-- On a grid, settling changes the last largest share at most, and afterwards the shares add up to
the total. -/
theorem settle_reaches_total (hne : shares ≠ []) (htotal : total.scale ≤ places)
    (hshares : ∀ share ∈ shares, share.scale ≤ places) (h : SettlesOnGrid places shares total) :
    ∃ i share settled, IsLastLargest shares i share ∧ settle shares total = shares.set i settled ∧
      exactSum (settle shares total) = total.toRat :=
  (h.settlesExactly htotal hshares).reaches_total hne

end PlanLedger
