import Mathlib.Algebra.BigOperators.Ring.List
import Mathlib.Algebra.Ring.Nat
import Mathlib.Data.List.Lex
import PlanLedger.Proofs.Dimension.Numbering
import PlanLedger.Proofs.Planning.Order

/-!
# The combinations that a run visits

The combinations of some dimensions are made dimension by dimension: every combination of those
before is followed up with each value of the next one, in the order of the codes. Where codes and
numbers are inverse to each other, the combinations so far are at each step all assignments of
registered values to the dimensions so far, each of them once, in the lexicographic order of the
codes. A run that succeeds has one entry for each combination, in their order.
-/

namespace PlanLedger

open Formula (Bindings)

/-! ## Values in the order of their codes -/

namespace MasterList

/-- Codes and numbers are inverse to each other: a code stands for the number that finds the value
with this code. -/
def Inverse (m : MasterList) : Prop :=
  ∀ code id, m.idOfCode? code = some id ↔ ∃ v, m.value? id = some v ∧ v.code = code

theorem inverse_iff {m : MasterList} : m.Inverse ↔
    (∀ p ∈ m.byCode.toList, (m.value? p.2).map (·.code) = some p.1) ∧
      ∀ p ∈ m.values.toList, m.idOfCode? p.2.code = some p.1 := by
  simp only [Inverse, idOfCode?, value?, Option.map_eq_some_iff, Prod.forall,
    ← SortedMap.get?_eq_some_iff]
  constructor
  · intro h
    exact ⟨fun code id ↦ (h code id).mp, fun id v hv ↦ (h v.code id).mpr ⟨v, hv, rfl⟩⟩
  · rintro ⟨hcodes, hvalues⟩ code id
    refine ⟨hcodes code id, ?_⟩
    rintro ⟨v, hv, rfl⟩
    exact hvalues id v hv

instance (m : MasterList) : Decidable m.Inverse := decidable_of_iff _ inverse_iff.symm

namespace Inverse

variable {m : MasterList} (h : m.Inverse)

include h

theorem mem_ids_iff {id : DimId} : id ∈ m.ids ↔ ∃ v, m.value? id = some v := by
  rw [ids, SortedMap.mem_values_iff]
  constructor
  · rintro ⟨code, hcode⟩
    obtain ⟨v, hv, -⟩ := (h code id).mp hcode
    exact ⟨v, hv⟩
  · rintro ⟨v, hv⟩
    exact ⟨v.code, (h v.code id).mpr ⟨v, hv, rfl⟩⟩

theorem codeOrId_eq {code : String} {id : DimId} (hcode : m.idOfCode? code = some id) :
    m.codeOrId id = code := by
  obtain ⟨v, hv, hsame⟩ := (h code id).mp hcode
  rw [codeOrId, hv]
  exact hsame

theorem ids_increasing :
    m.ids.Pairwise fun id id' ↦ compare (m.codeOrId id) (m.codeOrId id') = .lt := by
  rw [ids, SortedMap.values, List.pairwise_map]
  refine m.byCode.increasing.imp_of_mem fun {a b} ha hb hlt ↦ ?_
  rwa [h.codeOrId_eq (SortedMap.get?_eq_some_iff.mpr ha),
    h.codeOrId_eq (SortedMap.get?_eq_some_iff.mpr hb)]

theorem length_ids : m.ids.length = m.size := by
  have hkeys : m.ids.Perm m.values.keys :=
    (List.perm_ext_iff_of_nodup (nodup_of_increasing h.ids_increasing)
      (SortedMap.nodup_keys m.values)).mpr fun id ↦ by
        rw [h.mem_ids_iff, SortedMap.mem_keys_iff, value?]
  rw [hkeys.length_eq, SortedMap.keys, List.length_map, size, SortedMap.size]

end Inverse

end MasterList

namespace Registry

variable {r : Registry} {d : Dimension} {dims : List Dimension} {b : Bindings}

/-- Codes and numbers of a dimension are inverse to each other. -/
def Inverse (r : Registry) (d : Dimension) : Prop :=
  ∀ code id, r.idOfCode d code = .ok id ↔ ∃ v, r.value d id = .ok v ∧ v.code = code

theorem inverse_iff {m : MasterList} (hm : r.list d = .ok m) : r.Inverse d ↔ m.Inverse := by
  simp only [Inverse, MasterList.Inverse, idOfCode_eq_ok_iff hm, value_eq_ok_iff hm]

theorem codeOrId_eq {m : MasterList} (hm : r.list d = .ok m) (id : DimId) :
    r.codeOrId d id = m.codeOrId id := by
  rw [codeOrId, list_eq_ok_iff.mp hm]

/-! ## All assignments in lexicographic order -/

/-- A combination has a registered value on each of some dimensions, and nothing on others. -/
structure Assigns (r : Registry) (dims : List Dimension) (b : Bindings) : Prop where
  bound : ∀ d, (∃ id, b.get? d = some id) ↔ d ∈ dims
  registered : ∀ d id, b.get? d = some id → ∃ v, r.value d id = .ok v

/-- The codes of a combination on some dimensions, in the order of these. -/
def codesOn (r : Registry) (dims : List Dimension) (b : Bindings) : List String :=
  dims.map fun d ↦ (b.get? d).elim "" (r.codeOrId d)

/-- One combination comes before another one in the lexicographic order of their codes. -/
def Before (r : Registry) (dims : List Dimension) (b b' : Bindings) : Prop :=
  List.Lex (fun code code' ↦ compare code code' = .lt) (r.codesOn dims b) (r.codesOn dims b')

/-- A list has all assignments of registered values to some dimensions, each before those that come
after it in the lexicographic order, and so many of them as there are choices of a value on each
dimension. -/
structure Enumerates (r : Registry) (dims : List Dimension) (bs : List Bindings) : Prop where
  mem_iff : ∀ b, b ∈ bs ↔ r.Assigns dims b
  sorted : bs.Pairwise (r.Before dims)
  length_eq : bs.length = (dims.map fun d ↦ (r.listOrEmpty d).size).prod

theorem before_irrefl (r : Registry) (dims : List Dimension) (b : Bindings) :
    ¬r.Before dims b b := by
  intro h
  exact List.Lex.to_ne (h.imp fun _ _ ↦ ne_of_compare_eq_lt) rfl

theorem Enumerates.nodup {bs : List Bindings} (h : r.Enumerates dims bs) : bs.Nodup := by
  refine h.sorted.imp fun {b b'} hbefore ↦ ?_
  rintro rfl
  exact r.before_irrefl dims b hbefore

/-! ### One more dimension -/

theorem lex_append {α : Type} {lt : α → α → Prop} {l l' : List α} (hlex : List.Lex lt l l')
    (hlength : l.length = l'.length) (t t' : List α) : List.Lex lt (l ++ t) (l' ++ t') := by
  induction hlex with
  | nil => cases hlength
  | cons _ ih => exact .cons (ih (Nat.succ.inj hlength))
  | rel hlt => exact .rel hlt

theorem Assigns.insert (h : r.Assigns dims b) {id : DimId} {v : DimensionValue}
    (hv : r.value d id = .ok v) : r.Assigns (dims ++ [d]) (b.insert d id) := by
  constructor
  · intro d'
    rw [SortedMap.get?_insert, List.mem_append, List.mem_singleton, ← h.bound d']
    split_ifs with hd
    · exact iff_of_true ⟨id, rfl⟩ (.inr hd)
    · rw [or_iff_left hd]
  · intro d' id' hid'
    rw [SortedMap.get?_insert] at hid'
    split_ifs at hid' with hd
    · cases hid'
      exact ⟨v, hd ▸ hv⟩
    · exact h.registered d' id' hid'

theorem Assigns.erase (h : r.Assigns (dims ++ [d]) b) (hnew : d ∉ dims) :
    r.Assigns dims (b.erase d) := by
  constructor
  · intro d'
    rw [SortedMap.get?_erase]
    split_ifs with hd
    · exact iff_of_false nofun (hd ▸ hnew)
    · rw [h.bound d', List.mem_append, List.mem_singleton, or_iff_left hd]
  · intro d' id' hid'
    rw [SortedMap.get?_erase] at hid'
    split_ifs at hid'
    exact h.registered d' id' hid'

/-- A combination is what is left without a dimension, and its value on that dimension. -/
theorem insert_erase {id : DimId} (h : b.get? d = some id) : (b.erase d).insert d id = b := by
  refine SortedMap.ext_get? fun d' ↦ ?_
  rw [SortedMap.get?_insert, SortedMap.get?_erase]
  split_ifs with hd
  · rw [hd, h]
  · rfl

theorem codesOn_insert (hnew : d ∉ dims) (id : DimId) :
    r.codesOn (dims ++ [d]) (b.insert d id) = r.codesOn dims b ++ [r.codeOrId d id] := by
  rw [codesOn, List.map_append, List.map_singleton, SortedMap.get?_insert_self, codesOn]
  refine congrArg (· ++ _) (List.map_congr_left fun d' hd' ↦ ?_)
  rw [SortedMap.get?_insert_of_ne _ _ (ne_of_mem_of_not_mem hd' hnew)]

section

variable {bs : List Bindings} (h : r.Enumerates dims bs) (hnew : d ∉ dims) {m : MasterList}
  (hm : r.list d = .ok m) (hinverse : r.Inverse d)

include h hnew hm hinverse

private theorem Enumerates.mem_extend_iff :
    b ∈ (bs.flatMap fun b ↦ extendBindings b d m.ids) ↔ r.Assigns (dims ++ [d]) b := by
  have hlisted := (inverse_iff hm).mp hinverse
  simp only [List.mem_flatMap, mem_extendBindings]
  constructor
  · rintro ⟨b, hb, id, hid, rfl⟩
    obtain ⟨v, hv⟩ := hlisted.mem_ids_iff.mp hid
    exact ((h.mem_iff b).mp hb).insert ((value_eq_ok_iff hm).mpr hv)
  · intro hb
    obtain ⟨id, hid⟩ := (hb.bound d).mpr (by simp)
    obtain ⟨v, hv⟩ := hb.registered d id hid
    exact ⟨b.erase d, (h.mem_iff _).mpr (hb.erase hnew), id,
      hlisted.mem_ids_iff.mpr ⟨v, (value_eq_ok_iff hm).mp hv⟩, insert_erase hid⟩

private theorem Enumerates.sorted_extend :
    (bs.flatMap fun b ↦ extendBindings b d m.ids).Pairwise (r.Before (dims ++ [d])) := by
  have hlisted := (inverse_iff hm).mp hinverse
  refine List.pairwise_flatMap.mpr ⟨fun b _ ↦ ?_, ?_⟩
  · -- The same codes on the dimensions before, so the codes of the new dimension decide.
    refine List.pairwise_map.mpr (hlisted.ids_increasing.imp fun {id id'} hlt ↦ ?_)
    have hcodes : List.Lex (fun code code' ↦ compare code code' = .lt)
        [m.codeOrId id] [m.codeOrId id'] := .rel hlt
    rw [Before, codesOn_insert hnew, codesOn_insert hnew, codeOrId_eq hm, codeOrId_eq hm]
    exact .append_left _ hcodes _
  · refine h.sorted.imp fun {b b'} hbefore ↦ ?_
    intro x hx y hy
    obtain ⟨id, -, rfl⟩ := mem_extendBindings.mp hx
    obtain ⟨id', -, rfl⟩ := mem_extendBindings.mp hy
    rw [Before, codesOn_insert hnew, codesOn_insert hnew]
    exact lex_append hbefore (by rw [codesOn, codesOn, List.length_map, List.length_map]) _ _

omit hnew in
private theorem Enumerates.length_extend :
    (bs.flatMap fun b ↦ extendBindings b d m.ids).length =
      ((dims ++ [d]).map fun d ↦ (r.listOrEmpty d).size).prod := by
  have hlisted := (inverse_iff hm).mp hinverse
  have heach : (bs.map fun b ↦ (extendBindings b d m.ids).length) =
      List.replicate bs.length m.size := by
    rw [← List.map_const']
    exact List.map_congr_left fun b _ ↦ (List.length_map _).trans hlisted.length_ids
  rw [List.length_flatMap, heach, List.sum_replicate, h.length_eq, List.map_append,
    List.map_singleton, List.prod_append, List.prod_singleton, listOrEmpty_of_list hm,
    Nat.nsmul_eq_mul]

/-- **One more dimension.** Where all assignments to some dimensions are followed up with each value
of another dimension in the order of its codes, these are all assignments to the dimensions and the
one after them. -/
theorem Enumerates.extend :
    r.Enumerates (dims ++ [d]) (bs.flatMap fun b ↦ extendBindings b d m.ids) where
  mem_iff _ := h.mem_extend_iff hnew hm hinverse
  sorted := h.sorted_extend hnew hm hinverse
  length_eq := h.length_extend hm hinverse

end

/-! ### All dimensions -/

theorem enumerates_nil (r : Registry) : r.Enumerates [] [∅] := by
  refine ⟨fun b ↦ ?_, List.pairwise_singleton _ _, rfl⟩
  rw [List.mem_singleton]
  constructor
  · rintro rfl
    exact ⟨fun d ↦ iff_of_false nofun List.not_mem_nil, nofun⟩
  · intro hb
    refine SortedMap.ext_get? fun d ↦ ?_
    rw [SortedMap.get?_empty, Option.eq_none_iff_forall_ne_some]
    intro id hid
    exact absurd ((hb.bound d).mp ⟨id, hid⟩) List.not_mem_nil

/-- Where all assignments to some dimensions are extended by further dimensions, these are all
assignments to the dimensions and those after them. -/
theorem Enumerates.combinationsFrom {bs : List Bindings} (h : r.Enumerates dims bs)
    {rest : List Dimension} (hnodup : (dims ++ rest).Nodup)
    (hrest : ∀ d ∈ rest, r.Knows d ∧ r.Inverse d) :
    ∃ bs', r.combinationsFrom bs rest = .ok bs' ∧ r.Enumerates (dims ++ rest) bs' := by
  induction rest generalizing dims bs with
  | nil => exact ⟨bs, rfl, (List.append_nil dims).symm ▸ h⟩
  | cons d rest ih =>
    obtain ⟨⟨⟨m, hm⟩, hinverse⟩, hrest⟩ := List.forall_mem_cons.mp hrest
    have hnew : d ∉ dims := fun hd ↦
      (List.nodup_append.mp hnodup).2.2 d hd d List.mem_cons_self rfl
    rw [List.append_cons] at hnodup ⊢
    rw [Registry.combinationsFrom, ids_of_list hm, ok_bind]
    exact ih (h.extend hnew hm hinverse) hnodup hrest

theorem Enumerates.eq_nil_of_empty {bs : List Bindings} (h : r.Enumerates dims bs) (hd : d ∈ dims)
    (hempty : (r.listOrEmpty d).size = 0) : bs = [] :=
  List.eq_nil_of_length_eq_zero
    (h.length_eq.trans (List.prod_eq_zero (List.mem_map.mpr ⟨d, hd, hempty⟩)))

end Registry

/-! ## Runs -/

namespace Engine

/-- A run that is reported went through the combinations of its loop dimensions: its entries are
those of the combinations, one for each and numbered in their order. -/
structure Visits (e : Engine) (f : PlanFormula) (request : RunRequest) (report : RunReport)
    (p : RunPlan) : Prop where
  plan : e.plan f request = .ok p
  named : f.loopNames.mapM e.registry.dimension = .ok p.compiled.loops
  distinct : p.compiled.loops.Nodup
  known : ∀ d ∈ p.compiled.loops, e.registry.Knows d
  combinations : e.registry.combinations p.compiled.loops = .ok p.combinations
  entries : ∃ batch, List.Forall₂
    (fun b entry ↦ e.combinationEntry e.store f p batch b = .ok entry.toEntry)
    p.combinations report.entries
  numbered : report.entries.map (·.seq) = List.range p.combinations.length

theorem exists_visits {e : Engine} {f : PlanFormula} {request : RunRequest} {report : RunReport}
    (h : (e.runFormula f request).1 = .ok report) : ∃ p, e.Visits f request report p := by
  obtain ⟨p, batch, s, entries, hcalculates, rfl⟩ := exists_calculates h
  have hp := plan_eq_ok hcalculates.plan
  obtain ⟨dims, hdims, hnodup, heq⟩ := (foldlM_addLoop_eq_ok List.nodup_nil).mp hp.compiles.loops
  rw [List.nil_append] at heq hnodup
  have hentries : List.Forall₂
      (fun b entry ↦ e.combinationEntry e.store f p batch b = .ok entry.toEntry)
      p.combinations (listed f request entries).entries := by
    have hall := mapM_eq_ok.mp hcalculates.calculated
    rw [← toEntry_listed f request entries, List.forall₂_map_right_iff] at hall
    exact hall
  have hseq := Write.seq_listAll (r := { source := .formula f.name, preview := request.preview })
    rfl (entries.map Entry.toWrite)
  refine ⟨p, hcalculates.plan, heq ▸ hdims, heq ▸ hnodup, hp.compiles.knows_loops, hp.combinations,
    ⟨batch, hentries⟩, ?_⟩
  rw [hentries.length_eq]
  exact hseq

/-- **A run visits each combination once, in the order of the codes.** For known dimensions of which
none comes twice, and where codes and numbers are inverse to each other, the combinations are all
assignments of registered values, each of them once, in the lexicographic order of the codes with
the first dimension outermost. So they are as many as the product of the sizes of the master lists:
one without a value where there is no dimension, and none where a master list is empty. A run that
succeeds has the entries of the combinations of its loop dimensions, one for each and in their
order. -/
theorem combinations_visited (e : Engine) :
    (∀ dims : List Dimension, dims.Nodup →
      (∀ d ∈ dims, e.registry.Knows d ∧ e.registry.Inverse d) →
        ∃ bs, e.registry.combinations dims = .ok bs ∧ e.registry.Enumerates dims bs ∧ bs.Nodup ∧
          (dims = [] → bs = [∅]) ∧
          ((∃ d ∈ dims, (e.registry.listOrEmpty d).size = 0) → bs = [])) ∧
      ∀ f request report, (e.runFormula f request).1 = .ok report →
        ∃ p, e.Visits f request report p := by
  refine ⟨fun dims hnodup hdims ↦ ?_, fun f request report ↦ exists_visits⟩
  obtain ⟨bs, hbs, hall⟩ := e.registry.enumerates_nil.combinationsFrom hnodup hdims
  refine ⟨bs, hbs, hall, hall.nodup, ?_, ?_⟩
  · rintro rfl
    exact (Except.ok.inj hbs).symm
  · rintro ⟨d, hd, hempty⟩
    exact hall.eq_nil_of_empty hd hempty

/-- A master list of two values whose numbers are against the order of their codes. -/
private def crossedList (first second : String) : MasterList where
  values := .ofList [(2, { id := 2, code := first }), (1, { id := 1, code := second })]
  byCode := .ofList [(first, 2), (second, 1)]

/-- The small plan with two periods and two organisational units. -/
private def crossedPlan : Engine :=
  { smallPlan with
    registry := ⟨(smallPlan.registry.lists.insert .orgUnit (crossedList "O1" "O2")).insert
      .period (crossedList "01" "02")⟩ }

/-- A formula that gives every organisational unit the same revenue in all periods. -/
private def levelled : PlanFormula where
  name := "levelled"
  text := "[Period=$LOOP,OrgUnit=$LOOP].[REV] = 7"
  loopNames := ["Period", "OrgUnit"]

/-- The combination of a period and an organisational unit. -/
private def crossing (period orgUnit : DimId) : Bindings :=
  ((∅ : Bindings).insert .period period).insert .orgUnit orgUnit

/-- The periods change slowest, and both dimensions go from the code of the number 2 to that of the
number 1, in the combinations and in the entries of a run. -/
theorem combinations_visited_crossed :
    (∀ d ∈ [Dimension.period, .orgUnit],
        crossedPlan.registry.Knows d ∧ crossedPlan.registry.Inverse d) ∧
      crossedPlan.registry.combinations [.period, .orgUnit] =
        .ok [crossing 2 2, crossing 2 1, crossing 1 2, crossing 1 1] ∧
      crossedPlan.registry.Enumerates [.period, .orgUnit]
        [crossing 2 2, crossing 2 1, crossing 1 2, crossing 1 1] ∧
      ∃ report p, (crossedPlan.runFormula levelled { session := 1 }).1 = .ok report ∧
        crossedPlan.Visits levelled { session := 1 } report p ∧
        report.entries.map (fun entry ↦ (entry.key.cell.period, entry.key.cell.orgUnit)) =
          [(2, 2), (2, 1), (1, 2), (1, 1)] := by
  have hperiods : crossedPlan.registry.list .period = .ok (crossedList "01" "02") := by decide
  have hunits : crossedPlan.registry.list .orgUnit = .ok (crossedList "O1" "O2") := by decide
  have hknown : ∀ d ∈ [Dimension.period, .orgUnit],
      crossedPlan.registry.Knows d ∧ crossedPlan.registry.Inverse d := by
    simp only [List.forall_mem_cons, List.not_mem_nil, false_imp_iff, implies_true, and_true]
    exact ⟨⟨⟨_, hperiods⟩, (Registry.inverse_iff hperiods).mpr (by decide)⟩,
      ⟨_, hunits⟩, (Registry.inverse_iff hunits).mpr (by decide)⟩
  have hcombinations : crossedPlan.registry.combinations [.period, .orgUnit] =
      .ok [crossing 2 2, crossing 2 1, crossing 1 2, crossing 1 1] := by
    decide
  have hplaces : (crossedPlan.runFormula levelled { session := 1 }).1.map (fun report ↦
      report.entries.map fun entry ↦ (entry.key.cell.period, entry.key.cell.orgUnit)) =
        .ok [(2, 2), (2, 1), (1, 2), (1, 1)] := by
    decide +kernel
  obtain ⟨hall, hruns⟩ := combinations_visited crossedPlan
  obtain ⟨bs, hbs, henumerates, -⟩ := hall [.period, .orgUnit] (by decide) hknown
  rw [hcombinations] at hbs
  cases hbs
  cases hrun : (crossedPlan.runFormula levelled { session := 1 }).1 with
  | error err =>
    rw [hrun] at hplaces
    cases hplaces
  | ok report =>
    rw [hrun] at hplaces
    obtain ⟨p, hvisits⟩ := hruns levelled { session := 1 } report hrun
    exact ⟨hknown, hcombinations, henumerates, report, p, rfl, hvisits, Except.ok.inj hplaces⟩

end Engine

end PlanLedger
