import PlanLedger.Proofs.Planning.Amending
import PlanLedger.Proofs.Planning.Narrowing

/-!
# Distributing again

A distribution shares out the totals that it reads from a source. If it never reads a row, none of
its turns changes what another one reads, and a second distribution finds the same groups with the
same totals.

The first one moves the residue of each group onto one share, so it does not leave the proportions
that it found. But the settled shares add up to the total. So the second one divides the products of
values and total by that total itself, which gives back all values, the one with the residue too,
and leaves no residue. This is so where every sum and product can be calculated exactly; the values
may then be written with other decimals.

A group is looked up by its own values laid over those of the source. A group that contradicts the
source may read rows although the source has none, and then a second distribution moves the values
again.
-/

namespace PlanLedger

open Decimal (IsMultiple Representable)
open Engine (Admits)
open Working (run_bind_eq_ok run_lift_bind_eq_ok run_store_bind_eq_ok)

variable {x : WorkContext} {s : Store} {groupBy : List String} {reference : String}
  {dims : List Dimension} {rows : List Fact} {turns : List Turn}

/-! ## Distributions that succeed -/

theorem Turn.exists_run_distributeGroup {t : Turn} {b : Books} {rest : List Entry}
    (ht : t.HasTotal x reference b.store)
    (h : Admits x.run ((t.writes x).map Write.entry ++ rest) b) :
    ∃ tally b', (distributeGroup x reference (t.group, t.facts)).run b = .ok tally b' ∧
      Admits x.run rest b' := by
  have htotal := PlanningError.ofFormula_eq_ok.mpr ht
  rw [writes, newValues] at h
  cases hbase : sum? (t.facts.map Fact.value) with
  | none =>
    rw [hbase] at h
    refine ⟨x.rejected t.facts .groupSumOverflow, b,
      run_store_bind_eq_ok.mpr (run_lift_bind_eq_ok.mpr ⟨t.total, htotal, ?_⟩), h⟩
    simp only [hbase]
    rfl
  | some base =>
    simp only [hbase] at h
    by_cases hidle : (t.total.isZero || base.isZero) = true
    · rw [if_pos hidle] at h
      refine ⟨{}, b, run_store_bind_eq_ok.mpr (run_lift_bind_eq_ok.mpr ⟨t.total, htotal, ?_⟩), h⟩
      simp only [hbase, if_pos hidle]
      rfl
    · rw [if_neg hidle] at h
      obtain ⟨tally, b', hrun, hadmits⟩ := (does_rescaleGroup x t base).succeeds rest b h
      refine ⟨tally, b', run_store_bind_eq_ok.mpr (run_lift_bind_eq_ok.mpr ⟨t.total, htotal, ?_⟩),
        hadmits⟩
      simp only [hbase, if_neg hidle]
      exact hrun

theorem ReadsTotals.of_cons {t : Turn} (h : ReadsTotals x reference s (t :: turns)) :
    t.HasTotal x reference s ∧ ReadsTotals x reference (Write.applyAll s (t.writes x)) turns := by
  refine ⟨h [] t turns rfl, fun before t' after heq ↦ ?_⟩
  have htotal := h (t :: before) t' after (by rw [heq]; rfl)
  rwa [storeAfter_cons] at htotal

theorem ReadsTotals.unique {turns' : List Turn} (h : ReadsTotals x reference s turns)
    (h' : ReadsTotals x reference s turns')
    (hgroups : turns.map (fun t ↦ (t.group, t.facts)) = turns'.map fun t ↦ (t.group, t.facts)) :
    turns = turns' := by
  induction turns generalizing s turns' with
  | nil => exact (List.map_eq_nil_iff.mp hgroups.symm).symm
  | cons t turns ih =>
    obtain ⟨t', rest', rfl, hfirst, hothers⟩ := List.map_eq_cons_iff.mp hgroups.symm
    obtain ⟨ht, hturns⟩ := h.of_cons
    obtain ⟨ht', hturns'⟩ := h'.of_cons
    obtain ⟨group, facts, total⟩ := t
    obtain ⟨group', facts', total'⟩ := t'
    obtain ⟨rfl, rfl⟩ := Prod.mk.inj hfirst
    obtain rfl : total = total' := Except.ok.inj (ht.symm.trans ht')
    rw [ih hturns hturns' hothers.symm]

theorem Distributes.eq_singleton_of_grouped
    (h : Distributes x s groupBy reference dims rows turns) {t : Turn}
    (hgroups : (groupFacts dims rows).toList = [(t.group, t.facts)])
    (ht : t.HasTotal x reference s) : turns = [t] :=
  h.totals.unique (.cons ht fun _ _ _ heq ↦ by simp at heq) (h.grouped.trans hgroups)

/-- **Turns that succeed.** Turns succeed if each of them can read its total after those before it
and there is room for all entries. -/
theorem exists_run_turns {b : Books} {rest : List Entry}
    (h : ReadsTotals x reference b.store turns)
    (hadmits : Admits x.run ((turns.flatMap (Turn.writes x)).map Write.entry ++ rest) b) :
    ∃ tally b', (tallyOver (distributeGroup x reference)
      (turns.map fun t ↦ (t.group, t.facts))).run b = .ok tally b' ∧ Admits x.run rest b' := by
  induction turns generalizing b with
  | nil => exact ⟨_, b, rfl, hadmits⟩
  | cons t turns ih =>
    obtain ⟨ht, hturns⟩ := h.of_cons
    rw [List.flatMap_cons, List.map_append, List.append_assoc] at hadmits
    obtain ⟨first, b₁, hfirst, hadmits⟩ := Turn.exists_run_distributeGroup ht hadmits
    obtain ⟨total, htotal, -, hwrote⟩ := Turn.run_distributeGroup_eq_ok hfirst
    obtain rfl : t.total = total := Except.ok.inj (ht.symm.trans htotal)
    rw [← hwrote.store] at hturns
    obtain ⟨others, b₂, hothers, hadmits⟩ := ih hturns hadmits
    exact ⟨first.add others, b₂,
      run_bind_eq_ok.mpr ⟨first, b₁, hfirst, run_bind_eq_ok.mpr ⟨others, b₂, hothers, rfl⟩⟩,
      hadmits⟩

/-- A distribution that can be taken apart into turns succeeds if there is room for its entries. -/
theorem Distributes.exists_run_distribute {b : Books}
    (h : Distributes x b.store groupBy reference dims rows turns)
    (hadmits : Admits x.run ((turns.flatMap (Turn.writes x)).map Write.entry) b) :
    ∃ tally b', (distribute x groupBy reference).run b = .ok tally b' := by
  obtain ⟨data, keyFigure, hdata, hkeyFigure, hrows⟩ := h.selected
  rw [← List.append_nil (List.map _ _)] at hadmits
  obtain ⟨tally, b', hrun, -⟩ := exists_run_turns h.totals hadmits
  refine ⟨tally, b', run_lift_bind_eq_ok.mpr ⟨data, PlanningError.ofFormula_eq_ok.mpr hdata, ?_⟩⟩
  refine run_lift_bind_eq_ok.mpr ⟨keyFigure, PlanningError.ofRegistry_eq_ok.mpr hkeyFigure, ?_⟩
  rw [Working.mapM_lift]
  refine run_lift_bind_eq_ok.mpr ⟨dims, mapM_eq_ok.mpr ?_, run_store_bind_eq_ok.mpr ?_⟩
  · exact h.dimensions.imp fun _ _ hdim ↦ PlanningError.ofRegistry_eq_ok.mpr hdim
  · rw [← hrun, h.grouped, hrows]

/-! ## The rows afterwards -/

/-- A fact with the values that a store has under its key. -/
def Fact.seenIn (s : Store) (fact : Fact) : Fact :=
  { fact with values := (s.values? fact.key).getD fact.values }

namespace Distributes

/-- After the turns every row is the current fact of its cell, with the values that are stored then,
and nothing else was changed. -/
theorem amended (h : Distributes x s groupBy reference dims rows turns) :
    s.Amended (storeAfter x s turns) rows fun fact ↦
      .restated (fact.seenIn (storeAfter x s turns)).values := by
  have hrows := Write.rowsWritten_applyAll s (turns.flatMap (Turn.writes x))
  have hwritten : ∀ w ∈ turns.flatMap (Turn.writes x), ∃ fact ∈ rows, fact.key = w.key := by
    intro w hw
    obtain ⟨t, ht, p, hp, rfl⟩ := exists_of_mem_writes hw
    exact ⟨p.1, (h.mem_rows ht (Turn.mem_of_mem_newValues hp)).1, rfl⟩
  have hfound : ∀ fact ∈ rows, (storeAfter x s turns).find? fact.key =
      some (fact.seenIn (storeAfter x s turns)) := by
    intro fact hfact
    have hstored := Store.find?_eq_some_iff.mpr ⟨(h.isCurrentIn hfact).newest.mem, rfl⟩
    obtain ⟨row, hrow, hfactRow⟩ := Option.map_eq_some_iff.mp hstored
    obtain ⟨row', hrow', hid⟩ := hrows.rows fact.key row hrow
    have hfind : (storeAfter x s turns).find? fact.key = some (row'.toFact fact.key) := by
      rw [Store.find?, storeAfter, hrow', Option.map_some]
    rw [Fact.seenIn, Store.values?, hfind, Option.map_some, Option.getD_some, Row.toFact, hid,
      ← hfactRow]
    rfl
  refine ⟨hfound, fun fact hfact ↦ ?_, fun key hkey ↦ ?_, fun c hc ↦ ?_, hrows.batches,
    hrows.sessions, fun hnone ↦ ?_⟩
  · have htruthful : (Turn.shareWrite x (fact, fact.value)).Truthful s s.placeOf :=
      (h.isCurrentIn hfact).newest.truthful rfl rfl
    have hmem := (Store.find?_eq_some_iff.mp (hfound fact hfact)).1
    exact Store.currentFact?_eq_some_iff.mpr
      ⟨⟨hmem, htruthful.noneNewer_applyAll h.truthful⟩, rfl⟩
  · refine Write.find?_applyAll_of_forall_ne fun w hw hsame ↦ ?_
    obtain ⟨fact, hfact, heq⟩ := hwritten w hw
    exact hkey fact hfact (heq.trans hsame)
  · refine Write.currentFact?_applyAll_of_forall_ne fun w hw hsame ↦ ?_
    obtain ⟨fact, hfact, heq⟩ := hwritten w hw
    exact hc fact hfact ((congrArg FactKey.cell heq).trans hsame)
  · -- All rows are restated, so there are none.
    have hnil : turns.flatMap (Turn.writes x) = [] := by
      refine List.eq_nil_iff_forall_not_mem.mpr fun w hw ↦ ?_
      obtain ⟨fact, hfact, -⟩ := hwritten w hw
      cases hnone fact hfact
    rw [storeAfter, hnil]
    rfl

/-! ## Totals from outside -/

/-- A total is the same after any writes of rows, if the look-up for it reads no row. -/
theorem hasTotal_applyAll_iff (h : Distributes x s groupBy reference dims rows turns) {t : Turn}
    (hbeside : ∀ l, (x.lookUpContext s).lookUp ∅ (groupCall reference t.group) = .ok l →
      ∀ fact ∈ l.facts s, fact ∉ rows) {ws : List Write}
    (hws : ∀ w ∈ ws, ∃ fact ∈ rows, fact.cell = w.key.cell) :
    t.HasTotal x reference (Write.applyAll s ws) ↔ t.HasTotal x reference s := by
  rw [Turn.HasTotal, Turn.HasTotal, Formula.ReferenceContext.value_eq_ok_iff,
    Formula.ReferenceContext.value_eq_ok_iff]
  refine exists_congr fun l ↦ and_congr_right fun hl ↦ ?_
  have hagree : Store.AgreeOn (fun c ↦ l.filter.admits c = true) s (Write.applyAll s ws) := by
    refine Write.agreeOn_applyAll s fun w hw hadmits ↦ ?_
    obtain ⟨fact, hfact, hcell⟩ := hws w hw
    rw [← hcell] at hadmits
    refine hbeside l hl fact (Formula.LookUp.mem_facts_iff.mpr ⟨?_, hadmits⟩) hfact
    exact (h.isCurrentIn hfact).newest
  have hfacts : l.facts s = l.facts (Write.applyAll s ws) := hagree.selectCurrent_eq fun c hc ↦ hc
  show l.total? (Write.applyAll s ws) = _ ↔ l.total? s = _
  rw [Formula.LookUp.total?, Formula.LookUp.total?, hfacts]

theorem exists_row_of_mem_writes (h : Distributes x s groupBy reference dims rows turns) {w : Write}
    (hw : w ∈ turns.flatMap (Turn.writes x)) : ∃ fact ∈ rows, fact.cell = w.key.cell := by
  obtain ⟨t, ht, p, hp, rfl⟩ := exists_of_mem_writes hw
  exact ⟨p.1, (h.mem_rows ht (Turn.mem_of_mem_newValues hp)).1, rfl⟩

end Distributes

/-! ## The same turns again -/

/-- A turn with its facts as a store has them. -/
def Turn.seenIn (s : Store) (t : Turn) : Turn := { t with facts := t.facts.map (Fact.seenIn s) }

/-- The look-up for the total of a turn does not contradict its source, or it reads no row. -/
def Turn.LooksBeside (x : WorkContext) (s : Store) (reference : String) (rows : List Fact)
    (t : Turn) : Prop :=
  ∀ l, (x.lookUpContext s).lookUp ∅ (groupCall reference t.group) = .ok l →
    l.own.Agrees l.upper ∨ ∀ fact ∈ l.facts s, fact ∉ rows

/-- No fact of the source of a distribution is a row of it. -/
def SourceBeside (x : WorkContext) (s : Store) (reference : String) (rows : List Fact) : Prop :=
  ∀ l, (x.lookUpContext s).lookUp ∅ { name := reference } = .ok l → ∀ fact ∈ l.facts s, fact ∉ rows

theorem SourceBeside.of_lookUp {l : Formula.LookUp}
    (hl : (x.lookUpContext s).lookUp ∅ { name := reference } = .ok l)
    (h : ∀ fact ∈ l.facts s, fact ∉ rows) : SourceBeside x s reference rows := by
  intro l' hl'
  obtain rfl := Except.ok.inj (hl.symm.trans hl')
  exact h

/-- A look-up that does not contradict its source reads no row if the source has none. -/
theorem Turn.LooksBeside.not_mem_rows {t : Turn} (ht : t.LooksBeside x s reference rows)
    (hsource : SourceBeside x s reference rows) {l : Formula.LookUp}
    (hl : (x.lookUpContext s).lookUp ∅ (groupCall reference t.group) = .ok l) :
    ∀ fact ∈ l.facts s, fact ∉ rows := by
  rcases ht l hl with hagrees | hbeside
  · intro fact hfact
    rw [(l.facts_eq_filter_iff s).mpr (.inl hagrees)] at hfact
    exact hsource l.bare (Formula.ReferenceContext.lookUp_bare hl) fact (List.mem_filter.mp hfact).1
  · exact hbeside

namespace Distributes

/-- A distribution has its turns in one way only. -/
theorem unique (h : Distributes x s groupBy reference dims rows turns) {dims' : List Dimension}
    {rows' : List Fact} {turns' : List Turn}
    (h' : Distributes x s groupBy reference dims' rows' turns') :
    dims' = dims ∧ rows' = rows ∧ turns' = turns := by
  obtain rfl : dims = dims' := h.dimensions_eq h'.map_dimension
  obtain ⟨data, keyFigure, hdata, hkeyFigure, hrows⟩ := h.selected
  obtain rfl : rows' = rows := (h'.rows_eq hdata hkeyFigure).trans hrows.symm
  exact ⟨rfl, rfl, h'.totals.unique h.totals (h'.grouped.trans h.grouped.symm)⟩

/-- **Distributing again.** If no total is read from the rows, the same turns with the rows as they
are then, and with the same totals, make up a second distribution. -/
theorem again (h : Distributes x s groupBy reference dims rows turns)
    (hsource : SourceBeside x s reference rows)
    (hturns : ∀ t ∈ turns, t.LooksBeside x s reference rows) (run : RunId) :
    Distributes { x with run } (storeAfter x s turns) groupBy reference dims
      (rows.map (Fact.seenIn (storeAfter x s turns)))
      (turns.map (Turn.seenIn (storeAfter x s turns))) := by
  obtain ⟨data, keyFigure, hdata, hkeyFigure, hrows⟩ := h.selected
  have hamended := h.amended
  have htotal {t : Turn} (ht : t ∈ turns) {ws : List Write}
      (hws : ∀ w ∈ ws, ∃ fact ∈ rows, fact.cell = w.key.cell) :
      t.HasTotal x reference (Write.applyAll s ws) ↔ t.HasTotal x reference s :=
    h.hasTotal_applyAll_iff (fun l hl ↦ (hturns t ht).not_mem_rows hsource hl) hws
  refine ⟨h.dimensions, ⟨data, keyFigure, hdata, hkeyFigure, ?_⟩, ?_, ?_⟩
  · subst hrows
    exact hamended.selectCurrent_eq.symm
  · rw [groupFacts_map (f := Fact.seenIn _) fun _ ↦ rfl, ← h.grouped, List.map_map, List.map_map]
    rfl
  · intro before' t' after' heq
    obtain ⟨before, rest, rfl, rfl, hrest⟩ := List.map_eq_append_iff.mp heq
    obtain ⟨t, after, rfl, rfl, rfl⟩ := List.map_eq_cons_iff.mp hrest
    have ht : t ∈ before ++ t :: after := List.mem_append_right _ List.mem_cons_self
    generalize hleft : storeAfter x s (before ++ t :: after) = s'
    show t.HasTotal x reference (storeAfter { x with run } s' (before.map (Turn.seenIn s')))
    rw [storeAfter, ← hleft, storeAfter, ← Write.applyAll_append, htotal ht]
    · refine (htotal ht fun w hw ↦ ?_).mp (h.totals before t after rfl)
      obtain ⟨t', ht', hw⟩ := List.mem_flatMap.mp hw
      exact h.exists_row_of_mem_writes (List.mem_flatMap.mpr ⟨t', List.mem_append_left _ ht', hw⟩)
    · intro w hw
      rcases List.mem_append.mp hw with hw | hw
      · exact h.exists_row_of_mem_writes hw
      · obtain ⟨t', ht', p, hp, rfl⟩ := exists_of_mem_writes hw
        obtain ⟨first, hfirst, rfl⟩ := List.mem_map.mp ht'
        obtain ⟨fact, hfact, heq⟩ := List.mem_map.mp (Turn.mem_of_mem_newValues hp)
        refine ⟨fact, (h.mem_rows (List.mem_append_left _ hfirst) hfact).1, ?_⟩
        show fact.cell = p.1.cell
        rw [← heq]
        rfl

end Distributes

/-! ## Exact turns -/

/-- The same fact, its value being written with other decimals perhaps. -/
def Fact.Rewritten (fact fact' : Fact) : Prop :=
  ∃ value : Decimal, value.toRat = fact.value.toRat ∧
    fact' = { fact with values := { fact.values with value } }

/-- All numbers that occur when shares of a total are settled, and when the total is shared out once
more among the settled shares, are values of numbers, and the total has no more decimals than the
shares. -/
structure RedistributesExactly (places : Nat) (total : Decimal) (shares : List Decimal) : Prop where
  whole : IsMultiple places total.toRat
  settles : SettlesExactly shares (total.toPlaces places)
  sums : SumsExactly (settle shares (total.toPlaces places))
  products : ∀ value ∈ settle shares (total.toPlaces places),
    Representable (value.toRat * total.toRat)

theorem redistributesExactly_iff {places : Nat} {total : Decimal} {shares : List Decimal} :
    RedistributesExactly places total shares ↔
      IsMultiple places total.toRat ∧ SettlesExactly shares (total.toPlaces places) ∧
        SumsExactly (settle shares (total.toPlaces places)) ∧
          ∀ value ∈ settle shares (total.toPlaces places),
            Representable (value.toRat * total.toRat) :=
  ⟨fun ⟨hwhole, hsettles, hsums, hproducts⟩ ↦ ⟨hwhole, hsettles, hsums, hproducts⟩,
    fun ⟨hwhole, hsettles, hsums, hproducts⟩ ↦ ⟨hwhole, hsettles, hsums, hproducts⟩⟩

instance {places : Nat} {total : Decimal} {shares : List Decimal} :
    Decidable (RedistributesExactly places total shares) :=
  decidable_of_iff' _ redistributesExactly_iff

namespace Turn

variable {t : Turn} {places : Nat} {base : Decimal} {shares : List Decimal}

theorem exists_hasShares_of_reports_eq_nil (hfacts : t.facts ≠ []) (hidle : ¬t.IsIdle)
    (hreports : t.reports x = []) : ∃ base shares, sum? (t.facts.map Fact.value) = some base ∧
      t.total.isZero = false ∧ base.isZero = false ∧ t.HasShares x.scale base shares := by
  obtain ⟨base, hbase⟩ : ∃ base, sum? (t.facts.map Fact.value) = some base := by
    -- Without a sum all facts would be reported.
    refine Option.ne_none_iff_exists'.mp fun hnone ↦ ?_
    rw [reports, hnone] at hreports
    exact hfacts (List.map_eq_nil_iff.mp hreports)
  have htotal : t.total.isZero = false := Bool.eq_false_iff.mpr fun hzero ↦ hidle (.inl hzero)
  have hnonzero : base.isZero = false :=
    Bool.eq_false_iff.mpr fun hzero ↦ hidle (.inr ⟨base, hbase, hzero⟩)
  obtain ⟨shares, hshares⟩ := exists_hasShares (failed_eq_nil hbase htotal hnonzero hreports)
  exact ⟨base, shares, hbase, htotal, hnonzero, hshares⟩

/-- The total of a turn is shared out exactly, unless there is nothing to share out. -/
def IsExact (t : Turn) (places : Nat) : Prop :=
  ∀ base shares, sum? (t.facts.map Fact.value) = some base → ¬t.IsIdle →
    t.HasShares places base shares → RedistributesExactly places t.total shares

theorem HasShares.isExact (h : t.HasShares places base shares)
    (hbase : sum? (t.facts.map Fact.value) = some base)
    (hexact : RedistributesExactly places t.total shares) : t.IsExact places := by
  intro base' shares' hbase' _ h'
  obtain rfl := Option.some_inj.mp (hbase.symm.trans hbase')
  obtain rfl := h.unique h'
  exact hexact

/-- Every new value of a turn is the value that the fact has, with other decimals perhaps. -/
def KeepsValues (t : Turn) (places : Nat) : Prop :=
  ∀ p ∈ t.newValues places, p.2.toRat = p.1.value.toRat

/-- Facts whose values add up to the total exactly keep their values, where these have no more
decimals than shares. -/
theorem keepsValues_of_reached (hnonzero : t.total.isZero = false)
    (hwhole : IsMultiple places t.total.toRat) (hsums : SumsExactly (t.facts.map Fact.value))
    (hreached : exactSum (t.facts.map Fact.value) = t.total.toRat)
    (hvalues : ∀ value ∈ t.facts.map Fact.value, IsMultiple places value.toRat ∧
      Representable (value.toRat * t.total.toRat)) :
    ∃ base shares, sum? (t.facts.map Fact.value) = some base ∧ t.HasShares places base shares ∧
      (t.newValues places).length = t.facts.length ∧ t.KeepsValues places := by
  obtain ⟨base, hbase, hbaseValue⟩ := hsums.exists_sum?
  rw [hreached] at hbaseValue
  have hbaseNonzero : base.isZero = false := by
    rwa [Bool.eq_false_iff, Ne, Decimal.isZero_iff, hbaseValue, ← Decimal.isZero_iff, ← Ne,
      ← Bool.eq_false_iff]
  have hshare : ∀ fact ∈ t.facts, ∃ share,
      share? fact.value t.total base places = some share ∧ share.toRat = fact.value.toRat := by
    intro fact hfact
    obtain ⟨hmultiple, hproduct⟩ := hvalues fact.value (List.mem_map_of_mem hfact)
    exact exists_share?_of_eq hbaseValue hnonzero hproduct hmultiple
  obtain ⟨shares, hshares⟩ : ∃ shares, t.HasShares places base shares := by
    refine exists_hasShares (List.map_eq_nil_iff.mpr (List.filter_eq_nil_iff.mpr fun p hp ↦ ?_))
    obtain ⟨fact, hfact, rfl⟩ := List.mem_map.mp hp
    obtain ⟨share, hsome, -⟩ := hshare fact hfact
    rw [hsome]
    exact Bool.false_ne_true
  have hkept : ∀ p ∈ t.facts.zip shares, p.2.toRat = p.1.value.toRat := by
    rintro ⟨fact, share⟩ hmem
    obtain ⟨found, hfound, hvalue⟩ := hshare fact (List.of_mem_zip hmem).1
    rw [(List.forall₂_iff_zip.mp hshares).2 hmem, Option.some_inj] at hfound
    rw [hfound, hvalue]
  have hsame : shares.map Decimal.toRat = (t.facts.map Fact.value).map Decimal.toRat := by
    rw [List.map_map, eq_comm, map_eq_map_iff_forall₂]
    exact List.forall₂_iff_zip.mpr ⟨hshares.length_eq, fun hmem ↦ (hkept _ hmem).symm⟩
  -- The shares add up to the total as the values do, so they stay as they are.
  have hsettled : settle shares (t.total.toPlaces places) = shares := by
    refine settle_eq_self (hsums.congr hsame) ?_
    rw [Decimal.toRat_toPlaces_of_isMultiple hwhole, ← hreached, exactSum, exactSum, hsame]
  have hnew := hshares.newValues_eq hbase hnonzero hbaseNonzero
  rw [hsettled] at hnew
  refine ⟨base, shares, hbase, hshares, ?_, ?_⟩
  · rw [hnew, List.length_zip, ← hshares.length_eq, Nat.min_self]
  · rw [KeepsValues, hnew]
    exact hkept

end Turn

namespace Distributes

variable {t : Turn}

theorem seenIn_of_mem (h : Distributes x s groupBy reference dims rows turns) (ht : t ∈ turns)
    {p : Fact × Decimal} (hp : p ∈ t.newValues x.scale) :
    p.1.seenIn (storeAfter x s turns) =
      { p.1 with values := { p.1.values with value := p.2 } } := by
  rw [Fact.seenIn, h.values?_of_mem ht hp, Option.getD_some]

theorem seenIn_eq_self (h : Distributes x s groupBy reference dims rows turns) (ht : t ∈ turns)
    (hnone : t.newValues x.scale = []) : t.seenIn (storeAfter x s turns) = t := by
  have hfacts : t.facts.map (Fact.seenIn (storeAfter x s turns)) = t.facts := by
    refine (List.map_congr_left fun fact hfact ↦ ?_).trans (List.map_id _)
    have hkey : ∀ w ∈ turns.flatMap (Turn.writes x), w.key ≠ fact.key := fun w hw heq ↦
      h.cell_ne_of_newValues_eq_nil ht hnone hfact w hw (congrArg FactKey.cell heq)
    rw [Fact.seenIn, storeAfter, Write.values?_applyAll_of_forall_ne hkey,
      h.values?_of_mem_rows (h.mem_rows ht hfact).1, Option.getD_some]
    rfl
  rw [Turn.seenIn, hfacts]

theorem map_value_seenIn (h : Distributes x s groupBy reference dims rows turns) (ht : t ∈ turns)
    {values : List Decimal} (hlength : t.facts.length = values.length)
    (hnew : t.newValues x.scale = t.facts.zip values) :
    (t.seenIn (storeAfter x s turns)).facts.map Fact.value = values := by
  rw [Turn.seenIn, List.map_map, ← List.map_id values, map_eq_map_iff_forall₂]
  refine List.forall₂_iff_zip.mpr ⟨hlength, fun {fact value} hmem ↦ ?_⟩
  rw [← hnew] at hmem
  have hseen := h.seenIn_of_mem ht hmem
  rw [Function.comp_apply, hseen]
  rfl

/-- **A turn again.** After turns of which one reports nothing and is calculated exactly, that turn
with its facts as they are then has as many new values, reports nothing either, and keeps all
values. -/
theorem keepsValues_seenIn (h : Distributes x s groupBy reference dims rows turns) (ht : t ∈ turns)
    (hreports : t.reports x = []) (hexact : t.IsExact x.scale) (run : RunId) :
    ((t.seenIn (storeAfter x s turns)).newValues x.scale).length = (t.newValues x.scale).length ∧
      (t.seenIn (storeAfter x s turns)).reports { x with run } = [] ∧
      (t.seenIn (storeAfter x s turns)).KeepsValues x.scale := by
  by_cases hidle : t.IsIdle
  · have hnone := hidle.newValues_eq_nil x.scale
    rw [h.seenIn_eq_self ht hnone]
    refine ⟨rfl, hreports, fun p hp ↦ ?_⟩
    rw [hnone] at hp
    exact absurd hp List.not_mem_nil
  · obtain ⟨base, shares, hbase, htotal, hnonzero, hshares⟩ :=
      Turn.exists_hasShares_of_reports_eq_nil (h.facts_ne_nil ht) hidle hreports
    obtain ⟨hwhole, hsettles, hsums, hproducts⟩ := hexact base shares hbase hidle hshares
    have hne : shares ≠ [] := by
      rw [← List.length_pos_iff, ← hshares.length_eq, List.length_pos_iff]
      exact h.facts_ne_nil ht
    obtain ⟨-, -, -, -, -, hreached⟩ := hsettles.reaches_total hne
    have hmultiple := hsettles.isMultiple_of_mem
      (fun share hshare ↦ Decimal.isMultiple_toRat (hshares.scale_le share hshare))
      (Decimal.isMultiple_toRat (t.total.scale_toPlaces_le x.scale))
    rw [Decimal.toRat_toPlaces_of_isMultiple hwhole] at hreached
    have hnew := hshares.newValues_eq hbase htotal hnonzero
    have hlength : t.facts.length = (settle shares (t.total.toPlaces x.scale)).length := by
      rw [Turn.length_settle, hshares.length_eq]
    have hheld := h.map_value_seenIn ht hlength hnew
    generalize settle shares (t.total.toPlaces x.scale) = values at *
    subst hheld
    obtain ⟨base', shares', hbase', hshares', hcount, hkept⟩ :=
      Turn.keepsValues_of_reached (t := t.seenIn (storeAfter x s turns)) htotal hwhole hsums
        hreached fun value hvalue ↦ ⟨hmultiple value hvalue, hproducts value hvalue⟩
    refine ⟨?_, hshares'.reports_eq_nil (x := { x with run }) hbase', hkept⟩
    rw [hcount, hnew, List.length_zip, ← hlength, Nat.min_self, Turn.seenIn, List.length_map]

/-- Turns that keep the values of their facts leave every fact as it is, with other decimals
perhaps. -/
theorem rewritten_storeAfter (h : Distributes x s groupBy reference dims rows turns)
    (hkept : ∀ t ∈ turns, t.KeepsValues x.scale) (key : FactKey) :
    Option.Rel Fact.Rewritten (s.find? key) ((storeAfter x s turns).find? key) := by
  by_cases hwritten : ∃ w ∈ turns.flatMap (Turn.writes x), w.key = key
  · obtain ⟨w, hw, rfl⟩ := hwritten
    obtain ⟨t, ht, p, hp, rfl⟩ := exists_of_mem_writes hw
    have hrow := (h.mem_rows ht (Turn.mem_of_mem_newValues hp)).1
    have hstored : s.find? (Turn.shareWrite x p).key = some p.1 :=
      Store.find?_eq_some_iff.mpr ⟨(h.isCurrentIn hrow).newest.mem, rfl⟩
    rw [storeAfter, Write.find?_applyAll h.onDifferentCells hw hstored, hstored]
    exact .some ⟨p.2, hkept t ht p hp, rfl⟩
  · rw [storeAfter, Write.find?_applyAll_of_forall_ne fun w hw heq ↦ hwritten ⟨w, hw, heq⟩]
    cases s.find? key with
    | none => exact .none
    | some fact => exact .some ⟨fact.value, rfl, rfl⟩

end Distributes

/-! ## Distributions in engines -/

namespace Engine

variable {e : Engine} {id : SessionId} {session : Session} {outcome : FunctionOutcome}

/-- A distribution in an engine that can be taken apart into turns succeeds if there is room for its
entries. -/
theorem exists_outcome_of_distributes (hs : e.store.WellFormed)
    (hsession : e.sessionOfWork id = .ok session) (hfree : e.store.inUnit = false)
    (h : Distributes (e.workContext id session e.nextRun) e.store groupBy reference dims rows turns)
    (hroom : (turns.flatMap (Turn.writes (e.workContext id session e.nextRun))).length ≤
      maxEntries) :
    ∃ outcome, (e.runFunction (.distribute groupBy reference) id).1 = .ok outcome := by
  let x := e.workContext id session e.nextRun
  let b := e.begun (.function "distribute") false
  have hbegun : Distributes x b.store groupBy reference dims rows turns :=
    .of_withSaved (s := b.store) h
  have hadmits : Admits x.run ((turns.flatMap (Turn.writes x)).map Write.entry) b := by
    refine ⟨⟨_, run?_begun _ _, ?_⟩, fun entry hentry ↦ ?_⟩
    · rw [List.length_map]
      simpa using hroom
    · obtain ⟨w, hw, rfl⟩ := List.mem_map.mp hentry
      obtain ⟨t, ht, p, hp, rfl⟩ := Distributes.exists_of_mem_writes hw
      -- The batch of a stored fact belongs to the session of its cell.
      have hrow := (h.mem_rows ht (Turn.mem_of_mem_newValues hp)).1
      exact Store.checkKey_eq_ok_iff.mpr (hs.exists_batch (h.isCurrentIn hrow).newest.mem)
  obtain ⟨tally, worked, hwork⟩ := hbegun.exists_run_distribute hadmits
  exact ⟨_, runFunction_of_ok hsession hfree hwork⟩

/-- A distribution in an engine whose turns report nothing and keep the values of their facts
succeeds if there is room for its entries, and it leaves every fact as it is, with other decimals
perhaps. -/
theorem keeps_values_of_distributes (hs : e.store.WellFormed)
    (hsession : e.sessionOfWork id = .ok session) (hfree : e.store.inUnit = false)
    (h : Distributes (e.workContext id session e.nextRun) e.store groupBy reference dims rows turns)
    (hroom : (turns.flatMap (Turn.writes (e.workContext id session e.nextRun))).length ≤ maxEntries)
    (hreports : ∀ t ∈ turns, t.reports (e.workContext id session e.nextRun) = [])
    (hkept : ∀ t ∈ turns, t.KeepsValues e.options.scale) :
    ∃ outcome, (e.runFunction (.distribute groupBy reference) id).1 = .ok outcome ∧
      outcome.errors = [] ∧ ∀ key, Option.Rel Fact.Rewritten (e.store.find? key)
        ((e.runFunction (.distribute groupBy reference) id).2.store.find? key) := by
  obtain ⟨outcome, hrun⟩ := exists_outcome_of_distributes hs hsession hfree h hroom
  obtain ⟨x, dims', rows', turns', hdist⟩ := exists_distributedBy hrun
  obtain ⟨session', hsession', rfl⟩ := hdist.context
  obtain rfl : session = session' := Except.ok.inj (hsession.symm.trans hsession')
  obtain ⟨rfl, rfl, rfl⟩ := h.unique hdist.distributes
  refine ⟨outcome, hrun, ?_, fun key ↦ ?_⟩
  · rw [hdist.errors]
    exact List.flatMap_eq_nil_iff.mpr hreports
  · rw [hdist.store]
    exact h.rewritten_storeAfter hkept key

/-- **Distributing again.** If a distribution reports nothing and calculates exactly, its source has
none of its rows, and no group contradicts the source or else reads no row, then the same
distribution succeeds once more, reports nothing, and leaves every fact as it is, with other
decimals perhaps. -/
theorem redistribute_keeps_values (h : e.Reachable)
    (hrun : (e.runFunction (.distribute groupBy reference) id).1 = .ok outcome) :
    ∃ x dims rows turns, e.DistributedBy id groupBy reference outcome x dims rows turns ∧
      (outcome.errors = [] → SourceBeside x e.store reference rows →
        (∀ t ∈ turns, t.LooksBeside x e.store reference rows) →
        (∀ t ∈ turns, t.IsExact e.options.scale) →
        ∃ again, ((e.runFunction (.distribute groupBy reference) id).2.runFunction
            (.distribute groupBy reference) id).1 = .ok again ∧ again.errors = [] ∧
          ∀ key, Option.Rel Fact.Rewritten
            ((e.runFunction (.distribute groupBy reference) id).2.store.find? key)
            (((e.runFunction (.distribute groupBy reference) id).2.runFunction
              (.distribute groupBy reference) id).2.store.find? key)) := by
  obtain ⟨x, dims, rows, turns, hdist⟩ := exists_distributedBy hrun
  refine ⟨x, dims, rows, turns, hdist, fun herrors hsource hturns hexact ↦ ?_⟩
  have hreports : ∀ t ∈ turns, t.reports x = [] := by
    rw [hdist.errors] at herrors
    exact List.flatMap_eq_nil_iff.mp herrors
  have hroom : (turns.flatMap (Turn.writes x)).length ≤ maxEntries := by
    rw [← List.length_map (f := Write.entry), ← hdist.entries, List.length_map]
    exact length_entries_le_of_runFunction hrun
  have hwell := wellFormed_perform h.wellFormed (.function (.distribute groupBy reference) id)
  obtain ⟨session, hsession, rfl⟩ := hdist.context
  obtain ⟨-, -, store, ledger, hsaved, hafter⟩ := exists_after_of_runFunction hrun
  have hfirst := hdist.distributes
  have hkept := fun t ht ↦ hfirst.keepsValues_seenIn ht (hreports t ht) (hexact t ht)
    (ledger.lastRun + 1)
  have hsecond := hfirst.again hsource hturns (ledger.lastRun + 1)
  have hsessions := hfirst.amended.sessions
  rw [← hdist.store] at hkept hsecond hsessions
  rw [perform] at hwell
  rw [hafter] at hwell hkept hsecond hsessions ⊢
  refine keeps_values_of_distributes (e := { e with store, ledger }) hwell
    ((sessionOfWork_withStore ledger hsessions id).trans hsession) (by simp [Store.inUnit, hsaved])
    hsecond ?_ ?_ ?_
  · refine le_of_eq_of_le ?_ hroom
    rw [List.length_flatMap, List.length_flatMap, List.map_map]
    refine congrArg List.sum (List.map_congr_left fun t ht ↦ ?_)
    rw [Function.comp_apply, Turn.writes, Turn.writes, List.length_map, List.length_map]
    exact (hkept t ht).1
  · exact List.forall_mem_map.mpr fun t ht ↦ (hkept t ht).2.1
  · exact List.forall_mem_map.mpr fun t ht ↦ (hkept t ht).2.2

/-- A distribution with one turn, of which the shares can be calculated, reports nothing. -/
private theorem errors_eq_nil_of_hasShares {x : WorkContext} {dims : List Dimension}
    {rows : List Fact} {t : Turn} {base : Decimal} {shares : List Decimal}
    (h : e.DistributedBy id groupBy reference outcome x dims rows [t])
    (hbase : sum? (t.facts.map Fact.value) = some base)
    (hshares : t.HasShares e.options.scale base shares) : outcome.errors = [] := by
  rw [← h.scale_eq] at hshares
  rw [h.errors, List.flatMap_singleton]
  exact hshares.reports_eq_nil hbase

/-! ### Thirds of one hundred again -/

private def actualLookUp : Formula.LookUp where
  kind := .sum
  keyFigure := 1
  source := .ofList [(.version, 2)]
  upper := ∅

/-- Thirds of one hundred, the last one with one last decimal more, keep their values. -/
theorem redistribute_keeps_values_thirds :
    thirds.Reachable ∧ ∃ outcome again x dims,
      (thirds.runFunction (.distribute [] "Total") 1).1 = .ok outcome ∧
      thirds.DistributedBy 1 [] "Total" outcome x dims thirdsTurn.facts [thirdsTurn] ∧
      (outcome.errors = [] ∧ SourceBeside x thirds.store "Total" thirdsTurn.facts ∧
        thirdsTurn.LooksBeside x thirds.store "Total" thirdsTurn.facts ∧ thirdsTurn.IsExact 4) ∧
      ((thirds.runFunction (.distribute [] "Total") 1).2.runFunction
        (.distribute [] "Total") 1).1 = .ok again ∧ again.errors = [] ∧
      ∀ key, Option.Rel Fact.Rewritten
        ((thirds.runFunction (.distribute [] "Total") 1).2.store.find? key)
        (((thirds.runFunction (.distribute [] "Total") 1).2.runFunction
          (.distribute [] "Total") 1).2.store.find? key) := by
  have hreachable : thirds.Reachable := reachable_sharingPlan _ _ _
  obtain ⟨outcome, hrun⟩ : ∃ outcome, (thirds.runFunction (.distribute [] "Total") 1).1 =
    .ok outcome := exists_eq_ok (by decide +kernel)
  obtain ⟨x, dims, rows, turns, hdist, hagain⟩ := redistribute_keeps_values hreachable hrun
  obtain ⟨rfl, rfl⟩ : rows = thirdsTurn.facts ∧ turns = [thirdsTurn] :=
    turns_sharingPlan hdist (by decide +kernel) (by decide +kernel)
  have hbase : sum? (thirdsTurn.facts.map Fact.value) = some wholeBase := by decide +kernel
  have hshares : thirdsTurn.HasShares 4 wholeBase [third, third, third] :=
    Turn.hasShares_iff.mpr (by decide +kernel)
  have herrors : outcome.errors = [] := errors_eq_nil_of_hasShares hdist hbase hshares
  have hsource : SourceBeside x thirds.store "Total" thirdsTurn.facts := by
    refine .of_lookUp (l := actualLookUp) ?_ (by decide +kernel)
    rw [hdist.lookUpContext_eq]
    decide +kernel
  have hturn : thirdsTurn.LooksBeside x thirds.store "Total" thirdsTurn.facts :=
    fun l hl ↦ .inr (hsource l hl)
  have hexact : thirdsTurn.IsExact 4 := hshares.isExact hbase (by decide +kernel)
  obtain ⟨again, hrerun, hnone, hkept⟩ := hagain herrors hsource
    (List.forall_mem_singleton.mpr hturn) (List.forall_mem_singleton.mpr hexact)
  exact ⟨hreachable, outcome, again, x, dims, hrun, hdist, ⟨herrors, hsource, hturn, hexact⟩,
    hrerun, hnone, hkept⟩

/-! ### Facts that the source leaves out -/

/-- A plan of ten and twenty with a total of one hundred in the actual data, and thirty in another
session of the same version as the plan. -/
private def twoPlans : Engine :=
  { sharingPlan 4 [ten, twenty] hundred with
    store := List.foldl Store.after (sharingPlan 4 [ten, twenty] hundred).store
      [.createSession { version := 1, year := 1 }, .createBatch { session := 3, action := .delta },
        .put ({ smallCell 1 with session := 3 }.inBatch 3) { value := wholeBase }] }

/-- The turn of the version of the plan: the look-up for it reads both sessions of the version. -/
private def versionTurn : Turn where
  group := [(.version, 1)]
  facts := twoPlans.store.currentOf 1 ∅ (.ofSession 1)
  total := { Decimal.zero with mantissa := 60, mantissa_lt := by decide }

private def versionShares : List Decimal :=
  [⟨false, 200000, 4, by decide, four_le_maxScale⟩, ⟨false, 400000, 4, by decide, four_le_maxScale⟩]

/-- It is not enough that no fact of the source is a row. By versions, the look-up for the version
of the plan leaves the source of the actual data, and reads the rows among others. Ten and twenty
become twenty and forty, and then thirty and sixty, although no number is ever rounded. -/
theorem redistribute_moves_values :
    twoPlans.Reachable ∧ ∃ outcome again x,
      (twoPlans.runFunction (.distribute ["Version"] "Total") 1).1 = .ok outcome ∧
      twoPlans.DistributedBy 1 ["Version"] "Total" outcome x [.version] versionTurn.facts
        [versionTurn] ∧
      (outcome.errors = [] ∧ SourceBeside x twoPlans.store "Total" versionTurn.facts ∧
        versionTurn.IsExact 4) ∧
      ((twoPlans.runFunction (.distribute ["Version"] "Total") 1).2.runFunction
        (.distribute ["Version"] "Total") 1).1 = .ok again ∧
      ((twoPlans.runFunction (.distribute ["Version"] "Total") 1).2.store.currentValue
        (smallCell 1)).toRat = 20 ∧
      (((twoPlans.runFunction (.distribute ["Version"] "Total") 1).2.runFunction
        (.distribute ["Version"] "Total") 1).2.store.currentValue (smallCell 1)).toRat = 30 := by
  have hreachable : twoPlans.Reachable :=
    .new ((Store.Reachable.empty.calls _).calls _) _ _ _ _
  obtain ⟨outcome, hrun⟩ : ∃ outcome, (twoPlans.runFunction (.distribute ["Version"] "Total") 1).1 =
    .ok outcome := exists_eq_ok (by decide +kernel)
  obtain ⟨again, hagain⟩ : ∃ again,
    ((twoPlans.runFunction (.distribute ["Version"] "Total") 1).2.runFunction
      (.distribute ["Version"] "Total") 1).1 = .ok again := exists_eq_ok (by decide +kernel)
  obtain ⟨x, dims, rows, turns, hdist⟩ := exists_distributedBy hrun
  obtain rfl : dims = [.version] := hdist.dims_eq (by decide +kernel)
  obtain rfl : rows = versionTurn.facts := hdist.rows_eq rfl rfl
  obtain rfl : turns = [versionTurn] := by
    refine hdist.distributes.eq_singleton_of_grouped (by decide +kernel) ?_
    rw [Turn.HasTotal, hdist.lookUpContext_eq]
    decide +kernel
  have hbase : sum? (versionTurn.facts.map Fact.value) = some wholeBase := by decide +kernel
  have hshares : versionTurn.HasShares 4 wholeBase versionShares :=
    Turn.hasShares_iff.mpr (by decide +kernel)
  have herrors : outcome.errors = [] := errors_eq_nil_of_hasShares hdist hbase hshares
  have hsource : SourceBeside x twoPlans.store "Total" versionTurn.facts := by
    refine .of_lookUp (l := actualLookUp) ?_ (by decide +kernel)
    rw [hdist.lookUpContext_eq]
    decide +kernel
  have hexact : versionTurn.IsExact 4 := hshares.isExact hbase (by decide +kernel)
  exact ⟨hreachable, outcome, again, x, hrun, hdist, ⟨herrors, hsource, hexact⟩, hagain,
    by decide +kernel, by decide +kernel⟩

end Engine

end PlanLedger
