import PlanLedger.Proofs.Planning.Outcome
import PlanLedger.Proofs.Planning.Range
import PlanLedger.Proofs.Planning.Shares
import PlanLedger.Proofs.Planning.Written

/-!
# The turns of a distribution

The groups of a distribution have their turns one after the other. In its turn a group has its total
read, in the store as the turns before it have left it, and from the total follows what is written
and what is reported. The facts themselves are those of the start, and as they are facts of
different cells the writes of all turns go to different cells: after the distribution each fact has
the value that was calculated for it, and a fact without such a value has the one that it had.
-/

namespace PlanLedger

open Working (Does Writes run_bind_eq_ok run_lift_bind_eq_ok run_store_bind_eq_ok run_pure_eq_ok)

/-- Two lists give one list if and only if their members give the same one after the other. -/
theorem map_eq_map_iff_forall₂ {α β γ : Type} {f : α → γ} {g : β → γ} {l : List α} {l' : List β} :
    l.map f = l'.map g ↔ List.Forall₂ (fun a b ↦ f a = g b) l l' := by
  rw [← List.forall₂_eq_eq_eq, List.forall₂_map_left_iff, List.forall₂_map_right_iff]

/-- The turn of a group, with the total that is read for it. -/
structure Turn where
  group : GroupKey
  facts : List Fact
  total : Decimal

namespace Turn

/-! ## What a turn comes to -/

/-- The facts of a turn whose shares can be calculated, with their shares; `base` is the sum of all
values. -/
def shared (t : Turn) (places : Nat) (base : Decimal) : List (Fact × Decimal) :=
  (t.facts.map fun fact ↦ (fact, share? fact.value t.total base places)).filterMap fun p ↦
    p.2.map fun share ↦ (p.1, share)

/-- The facts of a turn whose shares cannot be calculated. -/
def failed (t : Turn) (places : Nat) (base : Decimal) : List Fact :=
  ((t.facts.map fun fact ↦ (fact, share? fact.value t.total base places)).filter fun p ↦
    p.2.isNone).map (·.1)

/-- The facts of a turn that are rescaled, with their new values. The shares are settled if all of
them can be calculated. -/
def rescaled (t : Turn) (places : Nat) (base : Decimal) : List (Fact × Decimal) :=
  let shared := t.shared places base
  if (t.failed places base).isEmpty then
    (shared.map (·.1)).zip (settle (shared.map (·.2)) (t.total.toPlaces places))
  else shared

/-- The new values that a turn gives to facts. -/
def newValues (t : Turn) (places : Nat) : List (Fact × Decimal) :=
  match sum? (t.facts.map Fact.value) with
  | none => []
  | some base => if t.total.isZero || base.isZero then [] else t.rescaled places base

variable {t : Turn} {places : Nat} {x : WorkContext}

def reports (x : WorkContext) (t : Turn) : List RowError :=
  match sum? (t.facts.map Fact.value) with
  | none => (x.rejected t.facts .groupSumOverflow).errors
  | some base =>
    if t.total.isZero || base.isZero then []
    else (x.rejected (t.failed x.scale base) .rescaleOverflow).errors

def shareWrite (x : WorkContext) (p : Fact × Decimal) : Write :=
  x.changeWrite p.1 (fun values ↦ { values with value := p.2 }) p.2 fun _ ↦ rfl

def writes (x : WorkContext) (t : Turn) : List Write := (t.newValues x.scale).map (shareWrite x)

theorem length_settle (shares : List Decimal) (total : Decimal) :
    (settle shares total).length = shares.length := by
  unfold settle
  split
  · split_ifs
    · rfl
    · dsimp only
      split
      · rw [List.length_set]
      · rfl
  · rfl

private theorem map_fst_shared (t : Turn) (places : Nat) (base : Decimal) :
    (t.shared places base).map Prod.fst =
      t.facts.filter fun fact ↦ (share? fact.value t.total base places).isSome := by
  rw [shared, ← List.filterMap_eq_filter, List.filterMap_map, List.map_filterMap]
  congr 1
  funext fact
  cases h : share? fact.value t.total base places <;> simp [Option.guard, h]

theorem map_fst_newValues_sublist (t : Turn) (places : Nat) :
    ((t.newValues places).map Prod.fst).Sublist t.facts := by
  have hshared (base : Decimal) : ((t.shared places base).map Prod.fst).Sublist t.facts := by
    rw [map_fst_shared]
    exact List.filter_sublist
  rw [newValues]
  split
  · exact List.nil_sublist _
  · split_ifs
    · exact List.nil_sublist _
    · rw [rescaled]
      split_ifs
      · rw [List.map_fst_zip (by rw [length_settle, List.length_map, List.length_map])]
        exact hshared _
      · exact hshared _

theorem mem_of_mem_newValues {p : Fact × Decimal} (h : p ∈ t.newValues places) : p.1 ∈ t.facts :=
  (map_fst_newValues_sublist t places).subset (List.mem_map_of_mem h)

/-- Whether there is no total to share out or no base to share it out by. -/
def IsIdle (t : Turn) : Prop :=
  t.total.isZero = true ∨ ∃ base, sum? (t.facts.map Fact.value) = some base ∧ base.isZero = true

theorem IsIdle.newValues_eq_nil (h : t.IsIdle) (places : Nat) : t.newValues places = [] := by
  rw [newValues]
  cases hbase : sum? (t.facts.map Fact.value) with
  | none => rfl
  | some base =>
    refine if_pos (Bool.or_eq_true_iff.mpr (h.imp_right ?_))
    rintro ⟨base', hbase', hzero⟩
    rwa [Option.some_inj.mp (hbase.symm.trans hbase')]

/-! ### Shares -/

/-- All facts of a turn have shares. -/
def HasShares (t : Turn) (places : Nat) (base : Decimal) (shares : List Decimal) : Prop :=
  List.Forall₂ (fun fact share ↦ share? fact.value t.total base places = some share) t.facts shares

variable {base : Decimal} {shares : List Decimal}

theorem hasShares_iff : t.HasShares places base shares ↔
    t.facts.map (fun fact ↦ share? fact.value t.total base places) = shares.map some :=
  map_eq_map_iff_forall₂.symm

theorem HasShares.unique {shares' : List Decimal} (h : t.HasShares places base shares)
    (h' : t.HasShares places base shares') : shares = shares' :=
  List.map_injective_iff.mpr (Option.some_injective _)
    ((hasShares_iff.mp h).symm.trans (hasShares_iff.mp h'))

theorem exists_hasShares (h : t.failed places base = []) :
    ∃ shares, t.HasShares places base shares := by
  refine ⟨t.facts.map fun fact ↦ (share? fact.value t.total base places).getD .zero, ?_⟩
  refine List.forall₂_map_right_iff.mpr (List.forall₂_same.mpr fun fact hfact ↦ ?_)
  rw [failed, List.map_eq_nil_iff, List.filter_eq_nil_iff] at h
  have hsome := h _ (List.mem_map_of_mem hfact)
  cases hshare : share? fact.value t.total base places with
  | none => simp [hshare] at hsome
  | some share => rfl

theorem scale_share?_le {value total share : Decimal}
    (h : share? value total base places = some share) : share.scale ≤ places := by
  obtain ⟨product, -, h⟩ := Option.bind_eq_some_iff.mp h
  obtain ⟨quotient, -, h⟩ := Option.bind_eq_some_iff.mp h
  obtain rfl := Option.some_inj.mp h
  exact quotient.scale_toPlaces_le places

theorem HasShares.scale_le (h : t.HasShares places base shares) :
    ∀ share ∈ shares, share.scale ≤ places := by
  rw [HasShares] at h
  generalize t.facts = facts at h
  induction h with
  | nil => exact nofun
  | cons hshare _ ih => exact List.forall_mem_cons.mpr ⟨scale_share?_le hshare, ih⟩

private theorem HasShares.map_share? (h : t.HasShares places base shares) :
    t.facts.map (fun fact ↦ (fact, share? fact.value t.total base places)) =
      (t.facts.zip shares).map fun p ↦ (p.1, some p.2) := by
  rw [HasShares] at h
  generalize t.facts = facts at h ⊢
  induction h with
  | nil => rfl
  | cons hshare _ ih =>
    rw [List.map_cons, ih, hshare]
    rfl

theorem HasShares.failed_eq_nil (h : t.HasShares places base shares) :
    t.failed places base = [] := by
  rw [failed, h.map_share?, List.map_eq_nil_iff, List.filter_eq_nil_iff]
  intro p hp
  obtain ⟨q, -, rfl⟩ := List.mem_map.mp hp
  exact Bool.false_ne_true

theorem HasShares.length_eq (h : t.HasShares places base shares) : t.facts.length = shares.length :=
  List.Forall₂.length_eq h

theorem HasShares.rescaled_eq (h : t.HasShares places base shares) :
    t.rescaled places base = t.facts.zip (settle shares (t.total.toPlaces places)) := by
  have hshared : t.shared places base = t.facts.zip shares := by
    rw [shared, h.map_share?, List.filterMap_map]
    exact List.filterMap_some
  rw [rescaled, h.failed_eq_nil, hshared, List.map_fst_zip h.length_eq.le,
    List.map_snd_zip h.length_eq.ge]
  rfl

theorem HasShares.reports_eq_nil (h : t.HasShares x.scale base shares)
    (hbase : sum? (t.facts.map Fact.value) = some base) : t.reports x = [] := by
  simp only [reports, hbase, h.failed_eq_nil]
  split_ifs <;> rfl

theorem failed_eq_nil (hbase : sum? (t.facts.map Fact.value) = some base)
    (htotal : t.total.isZero = false) (hnonzero : base.isZero = false) (h : t.reports x = []) :
    t.failed x.scale base = [] := by
  simp only [reports, hbase, htotal, hnonzero, Bool.or_self, Bool.false_eq_true, if_false] at h
  exact List.map_eq_nil_iff.mp h

/-- Settled shares are the new values of a turn that has a total, a base and shares. -/
theorem HasShares.newValues_eq (h : t.HasShares places base shares)
    (hbase : sum? (t.facts.map Fact.value) = some base) (htotal : t.total.isZero = false)
    (hnonzero : base.isZero = false) :
    t.newValues places = t.facts.zip (settle shares (t.total.toPlaces places)) := by
  simp only [newValues, hbase, htotal, hnonzero, Bool.or_self, Bool.false_eq_true, if_false]
  exact h.rescaled_eq

/-! ## Successful turns -/

theorem does_giveShare (x : WorkContext) (p : Fact × Decimal) :
    Does x.run [shareWrite x p] [] (giveShare x p) := by
  let f (values : FactValues) : FactValues := { values with value := p.2 }
  have hf : ∀ values, (f values).value = p.2 := fun _ ↦ rfl
  exact .change x p.1 hf

theorem does_rescaleGroup (x : WorkContext) (t : Turn) (base : Decimal) :
    Does x.run ((t.rescaled x.scale base).map (shareWrite x))
      (x.rejected (t.failed x.scale base) .rescaleOverflow).errors
      (rescaleGroup x t.total base t.facts) := by
  have hgiven : Does x.run ((t.rescaled x.scale base).map (shareWrite x)) []
      (tallyOver (giveShare x) (t.rescaled x.scale base)) :=
    .tallyOver_map fun p _ ↦ does_giveShare x p
  have hall := hgiven.add_rejected (x.rejected (t.failed x.scale base) .rescaleOverflow).errors
  rwa [List.append_nil] at hall

/-- A turn that succeeds has read its total, and from then on it does what the total says. -/
theorem run_distributeGroup_eq_ok {reference : String} {group : GroupKey × List Fact}
    {b b' : Books} {tally : Tally} (h : (distributeGroup x reference group).run b = .ok tally b') :
    ∃ total, (x.lookUpContext b.store).value ∅ (groupCall reference group.1) = .ok total ∧
      tally = ⟨(writes x ⟨group.1, group.2, total⟩).length, reports x ⟨group.1, group.2, total⟩⟩ ∧
      b.Wrote x.run (writes x ⟨group.1, group.2, total⟩) b' := by
  obtain ⟨total, htotal, h⟩ := run_lift_bind_eq_ok.mp (run_store_bind_eq_ok.mp h)
  refine ⟨total, PlanningError.ofFormula_eq_ok.mp htotal, ?_⟩
  cases hbase : sum? (group.2.map Fact.value) with
  | none =>
    simp only [hbase] at h
    simp only [writes, newValues, reports, hbase]
    exact Writes.pure x.run _ b tally b' h
  | some base =>
    simp only [hbase] at h
    simp only [writes, newValues, reports, hbase]
    split_ifs at h ⊢
    · exact Writes.pure x.run [] b tally b' h
    · exact (does_rescaleGroup x ⟨group.1, group.2, total⟩ base).writes b tally b' h

end Turn

/-! ## All turns of a distribution -/

def storeAfter (x : WorkContext) (s : Store) (turns : List Turn) : Store :=
  Write.applyAll s (turns.flatMap (Turn.writes x))

/-- The total of a turn is the one that is read for its group in a store. -/
def Turn.HasTotal (x : WorkContext) (reference : String) (s : Store) (t : Turn) : Prop :=
  (x.lookUpContext s).value ∅ (groupCall reference t.group) = .ok t.total

/-- Every turn has the total that is read in the store as the turns before it have left it. -/
def ReadsTotals (x : WorkContext) (reference : String) (s : Store) (turns : List Turn) : Prop :=
  ∀ before t after, turns = before ++ t :: after → t.HasTotal x reference (storeAfter x s before)

variable {x : WorkContext} {reference : String} {s : Store} {turns : List Turn}

theorem storeAfter_cons (x : WorkContext) (s : Store) (t : Turn) (turns : List Turn) :
    storeAfter x s (t :: turns) = storeAfter x (Write.applyAll s (t.writes x)) turns :=
  Write.applyAll_append s (t.writes x) (turns.flatMap (Turn.writes x))

theorem ReadsTotals.cons {t : Turn} (ht : t.HasTotal x reference s)
    (h : ReadsTotals x reference (Write.applyAll s (t.writes x)) turns) :
    ReadsTotals x reference s (t :: turns) := by
  intro before t' after heq
  cases before with
  | nil =>
    obtain ⟨rfl, -⟩ := List.cons.inj heq
    exact ht
  | cons first before =>
    obtain ⟨rfl, hrest⟩ := List.cons.inj heq
    rw [storeAfter_cons]
    exact h before t' after hrest

theorem run_turns_eq_ok {groups : List (GroupKey × List Fact)} {b b' : Books} {tally : Tally}
    (h : (tallyOver (distributeGroup x reference) groups).run b = .ok tally b') :
    ∃ turns : List Turn, turns.map (fun t ↦ (t.group, t.facts)) = groups ∧
      ReadsTotals x reference b.store turns ∧
      tally = ⟨(turns.flatMap (Turn.writes x)).length, turns.flatMap (Turn.reports x)⟩ ∧
      b.Wrote x.run (turns.flatMap (Turn.writes x)) b' := by
  induction groups generalizing b tally with
  | nil =>
    obtain ⟨rfl, rfl⟩ := run_pure_eq_ok.mp h
    exact ⟨[], rfl, fun before t after heq ↦ by simp at heq, rfl, .nil b⟩
  | cons group rest ih =>
    obtain ⟨first, b₁, hfirst, h⟩ := run_bind_eq_ok.mp h
    obtain ⟨others, b₂, hothers, h⟩ := run_bind_eq_ok.mp h
    obtain ⟨rfl, rfl⟩ := run_pure_eq_ok.mp h
    obtain ⟨total, htotal, rfl, hwrote⟩ := Turn.run_distributeGroup_eq_ok hfirst
    obtain ⟨turns, rfl, htotals, rfl, hwrote'⟩ := ih hothers
    rw [hwrote.store] at htotals
    refine ⟨⟨group.1, group.2, total⟩ :: turns, rfl, .cons htotal htotals, ?_,
      hwrote.append hwrote'⟩
    rw [Tally.add, List.flatMap_cons, List.flatMap_cons, List.length_append]

/-- A distribution by some dimensions to the values of reference data, from the store in which it
starts: the current facts of the session on the key figure of the reference data are put into
groups, and these have their turns in the order of groups. -/
structure Distributes (x : WorkContext) (s : Store) (groupBy : List String) (reference : String)
    (dims : List Dimension) (rows : List Fact) (turns : List Turn) : Prop where
  dimensions : List.Forall₂ (fun name d ↦ x.registry.dimension name = .ok d) groupBy dims
  selected : ∃ data keyFigure, x.catalog.reference reference = .ok data ∧
    x.registry.resolve .keyFigure data.keyFigure = .ok keyFigure ∧
    rows = s.currentOf keyFigure ∅ x.scope
  grouped : turns.map (fun t ↦ (t.group, t.facts)) = (groupFacts dims rows).toList
  totals : ReadsTotals x reference s turns

/-- A distribution that succeeds has turns, which make up all that is written and reported. -/
theorem run_distribute_eq_ok {groupBy : List String} {b b' : Books} {tally : Tally}
    (h : (distribute x groupBy reference).run b = .ok tally b') :
    ∃ dims rows turns, Distributes x b.store groupBy reference dims rows turns ∧
      tally = ⟨(turns.flatMap (Turn.writes x)).length, turns.flatMap (Turn.reports x)⟩ ∧
      b.Wrote x.run (turns.flatMap (Turn.writes x)) b' := by
  obtain ⟨data, hdata, h⟩ := run_lift_bind_eq_ok.mp h
  obtain ⟨keyFigure, hkeyFigure, h⟩ := run_lift_bind_eq_ok.mp h
  rw [Working.mapM_lift] at h
  obtain ⟨dims, hdims, h⟩ := run_lift_bind_eq_ok.mp h
  obtain ⟨turns, hturns, htotals, htally, hwrote⟩ := run_turns_eq_ok (run_store_bind_eq_ok.mp h)
  refine ⟨dims, b.store.currentOf keyFigure ∅ x.scope, turns, ⟨?_, ?_, hturns, htotals⟩, htally,
    hwrote⟩
  · exact (mapM_eq_ok.mp hdims).imp fun _ _ hdim ↦ PlanningError.ofRegistry_eq_ok.mp hdim
  · exact ⟨data, keyFigure, PlanningError.ofFormula_eq_ok.mp hdata,
      PlanningError.ofRegistry_eq_ok.mp hkeyFigure, rfl⟩

theorem Distributes.of_withSaved {groupBy : List String} {dims : List Dimension} {rows : List Fact}
    {saved : Option Contents}
    (h : Distributes x { s with saved } groupBy reference dims rows turns) :
    Distributes x s groupBy reference dims rows turns := by
  refine ⟨h.dimensions, h.selected, h.grouped, fun before t after heq ↦ ?_⟩
  have htotal := h.totals before t after heq
  have hfacts : (storeAfter x { s with saved } before).facts = (storeAfter x s before).facts := by
    rw [storeAfter, Write.applyAll_withSaved]
    rfl
  have hagree : Store.AgreeOn (fun _ ↦ True) (storeAfter x s before)
      (storeAfter x { s with saved } before) := .of_facts_eq hfacts.symm
  rw [Turn.HasTotal, ← htotal]
  exact Formula.ReferenceContext.value_congr hagree fun _ _ _ _ _ _ _ ↦ trivial

/-! ## What the turns leave -/

namespace Turn

/-- The facts of a turn show their old values in a store, and no entry lists them. -/
def LeftAlone (t : Turn) (s : Store) (entries : List RunEntry) : Prop :=
  ∀ fact ∈ t.facts, s.currentValues? fact.cell = some fact.values ∧
    ∀ entry ∈ entries, entry.key.cell ≠ fact.cell

/-- The facts of a turn show new values in a store; all else they say is as it was. -/
def HaveValues (t : Turn) (s : Store) (values : List Decimal) : Prop :=
  List.Forall₂ (fun fact value ↦ s.currentValues? fact.cell = some { fact.values with value })
    t.facts values

end Turn

namespace Distributes

variable {groupBy : List String} {dims : List Dimension} {rows : List Fact}

theorem map_dimension (h : Distributes x s groupBy reference dims rows turns) :
    groupBy.map x.registry.dimension = dims.map Except.ok :=
  map_eq_map_iff_forall₂.mpr h.dimensions

theorem dimensions_eq (h : Distributes x s groupBy reference dims rows turns)
    {dims' : List Dimension}
    (hdims' : groupBy.map x.registry.dimension = dims'.map Except.ok) : dims = dims' :=
  List.map_injective_iff.mpr (fun _ _ ↦ Except.ok.inj) (h.map_dimension.symm.trans hdims')

theorem rows_eq (h : Distributes x s groupBy reference dims rows turns)
    {data : Formula.ReferenceData} {keyFigure : DimId}
    (hdata : x.catalog.reference reference = .ok data)
    (hkeyFigure : x.registry.resolve .keyFigure data.keyFigure = .ok keyFigure) :
    rows = s.currentOf keyFigure ∅ x.scope := by
  obtain ⟨data', keyFigure', hdata', hkeyFigure', hrows⟩ := h.selected
  obtain rfl := Except.ok.inj (hdata'.symm.trans hdata)
  obtain rfl := Except.ok.inj (hkeyFigure'.symm.trans hkeyFigure)
  exact hrows

theorem mem_groups (h : Distributes x s groupBy reference dims rows turns) {t : Turn}
    (ht : t ∈ turns) : (t.group, t.facts) ∈ (groupFacts dims rows).toList := by
  rw [← h.grouped]
  exact List.mem_map_of_mem ht

theorem mem_rows (h : Distributes x s groupBy reference dims rows turns) {t : Turn} (ht : t ∈ turns)
    {fact : Fact} (hfact : fact ∈ t.facts) : fact ∈ rows ∧ groupOf dims fact.cell = t.group :=
  mem_of_mem_groupFacts (h.mem_groups ht) hfact

theorem isCurrentIn (h : Distributes x s groupBy reference dims rows turns) {fact : Fact}
    (hfact : fact ∈ rows) : s.IsCurrentIn x.sessionId fact := by
  obtain ⟨data, keyFigure, -, -, rfl⟩ := h.selected
  exact Store.isCurrentIn_of_mem_selectCurrent hfact

theorem increasing (h : Distributes x s groupBy reference dims rows turns) :
    rows.Pairwise fun a b ↦ compare a.cell b.cell = .lt := by
  obtain ⟨data, keyFigure, -, -, rfl⟩ := h.selected
  exact s.selectCurrent_increasing _ _

theorem groups_increasing (h : Distributes x s groupBy reference dims rows turns) :
    turns.Pairwise fun t t' ↦ compare t.group t'.group = .lt := by
  have hincreasing := (groupFacts dims rows).increasing
  rw [← h.grouped] at hincreasing
  exact List.pairwise_map.mp hincreasing

theorem eq_of_cell_eq (h : Distributes x s groupBy reference dims rows turns) {a b : Fact}
    (ha : a ∈ rows) (hb : b ∈ rows) (hcell : a.cell = b.cell) : a = b :=
  (h.isCurrentIn ha).newest.unique (h.isCurrentIn hb).newest hcell

theorem facts_sublist (h : Distributes x s groupBy reference dims rows turns) {t : Turn}
    (ht : t ∈ turns) : t.facts.Sublist rows := by
  rw [(mem_groupFacts_iff.mp (h.mem_groups ht)).2]
  exact List.filter_sublist

theorem facts_ne_nil (h : Distributes x s groupBy reference dims rows turns) {t : Turn}
    (ht : t ∈ turns) : t.facts ≠ [] := (mem_groupFacts_iff.mp (h.mem_groups ht)).1

/-- There is a turn if there are facts. -/
theorem turns_ne_nil (h : Distributes x s groupBy reference dims rows turns) (hne : rows ≠ []) :
    turns ≠ [] := by
  obtain ⟨fact, hfact⟩ := List.exists_mem_of_ne_nil rows hne
  obtain ⟨l, hl, -⟩ := @exists_mem_groupFacts dims rows fact hfact
  rintro rfl
  rw [← h.grouped] at hl
  cases hl

theorem eq_of_mem_facts (h : Distributes x s groupBy reference dims rows turns) {t t' : Turn}
    (ht : t ∈ turns) (ht' : t' ∈ turns) {fact : Fact} (hfact : fact ∈ t.facts)
    (hfact' : fact ∈ t'.facts) : t = t' := by
  have hgroup : t.group = t'.group :=
    (h.mem_rows ht hfact).2.symm.trans (h.mem_rows ht' hfact').2
  have hnodup : (turns.map Turn.group).Nodup :=
    nodup_of_increasing (f := id) (List.pairwise_map.mpr h.groups_increasing)
  exact List.inj_on_of_nodup_map hnodup ht ht' hgroup

theorem eq_singleton (h : Distributes x s [] reference dims rows turns) (hne : rows ≠ []) :
    ∃ total, turns = [⟨[], rows, total⟩] := by
  obtain rfl := List.forall₂_nil_left_iff.mp h.dimensions
  have hall : ∀ t ∈ turns, t.group = [] ∧ t.facts = rows := by
    intro t ht
    obtain ⟨fact, hfact⟩ := List.exists_mem_of_ne_nil _ (h.facts_ne_nil ht)
    have hgroup : t.group = [] := (h.mem_rows ht hfact).2.symm
    refine ⟨hgroup, ?_⟩
    rw [(mem_groupFacts_iff.mp (h.mem_groups ht)).2, hgroup]
    exact List.filter_eq_self.mpr fun _ _ ↦ decide_eq_true rfl
  have hincreasing := h.groups_increasing
  cases turns with
  | nil => exact absurd rfl (h.turns_ne_nil hne)
  | cons t others =>
    obtain ⟨hfirst, hrest⟩ := List.forall_mem_cons.mp hall
    cases others with
    | nil => exact ⟨t.total, by rw [← hfirst.1, ← hfirst.2]⟩
    | cons t' others =>
      -- A second turn would have the same group.
      have hlt := (List.pairwise_cons.mp hincreasing).1 t' List.mem_cons_self
      rw [hfirst.1, (hrest t' List.mem_cons_self).1] at hlt
      cases hlt

theorem exists_of_mem_writes {w : Write} (hw : w ∈ turns.flatMap (Turn.writes x)) :
    ∃ t ∈ turns, ∃ p ∈ t.newValues x.scale, w = Turn.shareWrite x p := by
  obtain ⟨t, ht, hw⟩ := List.mem_flatMap.mp hw
  obtain ⟨p, hp, rfl⟩ := List.mem_map.mp hw
  exact ⟨t, ht, p, hp, rfl⟩

theorem onDifferentCells (h : Distributes x s groupBy reference dims rows turns) :
    Write.OnDifferentCells (turns.flatMap (Turn.writes x)) := by
  refine List.pairwise_flatMap.mpr ⟨fun t ht ↦ ?_, ?_⟩
  · -- The facts of one turn stand in the order of their cells.
    have hfacts := h.increasing.sublist
      ((Turn.map_fst_newValues_sublist t x.scale).trans (h.facts_sublist ht))
    refine List.pairwise_map.mpr ((List.pairwise_map.mp hfacts).imp fun {p q} hlt hcell ↦ ?_)
    have hsame : p.1.cell = q.1.cell := hcell
    rw [hsame, Std.compare_self] at hlt
    cases hlt
  · -- The cells of different turns are in different groups.
    refine h.groups_increasing.imp_of_mem fun {t t'} ht ht' hlt w hw w' hw' hcell ↦ ?_
    obtain ⟨p, hp, rfl⟩ := List.mem_map.mp hw
    obtain ⟨p', hp', rfl⟩ := List.mem_map.mp hw'
    have hgroup := (h.mem_rows ht (Turn.mem_of_mem_newValues hp)).2
    have hgroup' := (h.mem_rows ht' (Turn.mem_of_mem_newValues hp')).2
    have hsame : p.1.cell = p'.1.cell := hcell
    rw [← hgroup, ← hgroup', hsame, Std.compare_self] at hlt
    cases hlt

theorem truthful (h : Distributes x s groupBy reference dims rows turns) :
    ∀ w ∈ turns.flatMap (Turn.writes x), w.Truthful s s.placeOf := by
  intro w hw
  obtain ⟨t, ht, p, hp, rfl⟩ := exists_of_mem_writes hw
  have hrow := (h.mem_rows ht (Turn.mem_of_mem_newValues hp)).1
  exact (h.isCurrentIn hrow).newest.truthful rfl rfl

theorem values?_of_mem_rows (h : Distributes x s groupBy reference dims rows turns) {fact : Fact}
    (hfact : fact ∈ rows) : s.values? fact.key = some fact.values := by
  rw [Store.values?, Store.find?_eq_some_iff.mpr ⟨(h.isCurrentIn hfact).newest.mem, rfl⟩,
    Option.map_some]

theorem values?_of_mem (h : Distributes x s groupBy reference dims rows turns) {t : Turn}
    (ht : t ∈ turns) {p : Fact × Decimal} (hp : p ∈ t.newValues x.scale) :
    (storeAfter x s turns).values? p.1.key = some { p.1.values with value := p.2 } := by
  have hbefore := h.values?_of_mem_rows (h.mem_rows ht (Turn.mem_of_mem_newValues hp)).1
  have hmem : Turn.shareWrite x p ∈ turns.flatMap (Turn.writes x) :=
    List.mem_flatMap.mpr ⟨t, ht, List.mem_map_of_mem hp⟩
  have hafter := Write.values?_applyAll (s := s) h.onDifferentCells hmem
  have hkey : (Turn.shareWrite x p).key = p.1.key := rfl
  rw [hkey, hbefore] at hafter
  exact hafter

/-- **New values.** After the turns a fact with a new value has it, and all else it says is as it
was. -/
theorem currentValues?_of_mem (h : Distributes x s groupBy reference dims rows turns) {t : Turn}
    (ht : t ∈ turns) {p : Fact × Decimal} (hp : p ∈ t.newValues x.scale) :
    (storeAfter x s turns).currentValues? p.1.cell = some { p.1.values with value := p.2 } := by
  have hbefore := h.values?_of_mem_rows (h.mem_rows ht (Turn.mem_of_mem_newValues hp)).1
  have hmem : Turn.shareWrite x p ∈ turns.flatMap (Turn.writes x) :=
    List.mem_flatMap.mpr ⟨t, ht, List.mem_map_of_mem hp⟩
  have hafter := Write.currentValues?_applyAll h.truthful h.onDifferentCells hmem
  have hkey : (Turn.shareWrite x p).key = p.1.key := rfl
  rw [hkey, hbefore] at hafter
  exact hafter

/-- After the turns the facts of one that has a total, a base and shares have the settled shares. -/
theorem haveValues_settle (h : Distributes x s groupBy reference dims rows turns) {t : Turn}
    (ht : t ∈ turns) {base : Decimal} {shares : List Decimal}
    (hshares : t.HasShares x.scale base shares)
    (hbase : sum? (t.facts.map Fact.value) = some base) (htotal : t.total.isZero = false)
    (hnonzero : base.isZero = false) :
    t.HaveValues (storeAfter x s turns) (settle shares (t.total.toPlaces x.scale)) := by
  refine List.forall₂_iff_zip.mpr ⟨?_, fun {fact value} hmem ↦ ?_⟩
  · rw [Turn.length_settle, hshares.length_eq]
  · rw [← hshares.newValues_eq hbase htotal hnonzero] at hmem
    exact h.currentValues?_of_mem ht hmem

/-- No write is of a fact of a turn without new values. -/
theorem cell_ne_of_newValues_eq_nil (h : Distributes x s groupBy reference dims rows turns)
    {t : Turn} (ht : t ∈ turns) (hnone : t.newValues x.scale = []) {fact : Fact}
    (hfact : fact ∈ t.facts) : ∀ w ∈ turns.flatMap (Turn.writes x), w.key.cell ≠ fact.cell := by
  intro w hw hcell
  obtain ⟨t', ht', p, hp, rfl⟩ := exists_of_mem_writes hw
  have hmem := Turn.mem_of_mem_newValues hp
  obtain rfl := h.eq_of_cell_eq (h.mem_rows ht' hmem).1 (h.mem_rows ht hfact).1 hcell
  obtain rfl := h.eq_of_mem_facts ht ht' hfact hmem
  rw [hnone] at hp
  exact absurd hp List.not_mem_nil

theorem currentValues?_of_newValues_eq_nil (h : Distributes x s groupBy reference dims rows turns)
    {t : Turn} (ht : t ∈ turns) (hnone : t.newValues x.scale = []) {fact : Fact}
    (hfact : fact ∈ t.facts) :
    (storeAfter x s turns).currentValues? fact.cell = some fact.values := by
  rw [storeAfter,
    Write.currentValues?_applyAll_of_forall_ne (h.cell_ne_of_newValues_eq_nil ht hnone hfact)]
  exact (h.isCurrentIn (h.mem_rows ht hfact).1).newest.currentValues?_eq

end Distributes

end PlanLedger
