import Mathlib.Data.List.TFAE
import Mathlib.Tactic.TFAE
import PlanLedger.Proofs.Dimension.Registry

/-!
# Codes and numbers

A master list keeps its values by number and, beside it, the number of every code. A value is
refused if its code is taken, but not if its number is. So a code always stands for the number of
the value that was added with it, while a number finds the value that was added with it last.

What the two maps hold is read off the list of the values that were added, and every question about
them becomes one about that list. The two directions are inverse exactly if no number was given to
two values. As soon as one was, everything that presumes an inverse fails together: a number is
listed twice, the count of the values is not that of the numbers, a code is listed out of order, and
a value can no longer be found.
-/

namespace PlanLedger

/-! ## Master lists -/

/-- A master list holds the values that were added to it, one after the other. -/
structure MasterList.Records (m : MasterList) (added : List DimensionValue) : Prop where
  values : m.values = .ofList (added.map fun v ↦ (v.id, v))
  byCode : m.byCode = .ofList (added.map fun v ↦ (v.code, v.id))
  codes_nodup : (added.map (·.code)).Nodup

namespace MasterList

variable {m m' : MasterList} {added : List DimensionValue} {v : DimensionValue}

theorem records_empty : ({} : MasterList).Records [] := ⟨rfl, rfl, List.nodup_nil⟩

theorem insert?_eq_some_iff : m.insert? v = some m' ↔ m.byCode.get? v.code = none ∧
    m' = { values := m.values.insert v.id v, byCode := m.byCode.insert v.code v.id } := by
  rw [insert?, SortedMap.contains]
  cases m.byCode.get? v.code with
  | none => simp [eq_comm]
  | some id => simp

private theorem map_fst_codes (added : List DimensionValue) :
    (added.map fun v ↦ (v.code, v.id)).map Prod.fst = added.map (·.code) := List.map_map

private theorem map_fst_ids (added : List DimensionValue) :
    (added.map fun v ↦ (v.id, v)).map Prod.fst = added.map (·.id) := List.map_map

theorem Records.insert (h : m.Records added) (hinsert : m.insert? v = some m') :
    m'.Records (added ++ [v]) := by
  obtain ⟨hfree, rfl⟩ := insert?_eq_some_iff.mp hinsert
  refine ⟨?_, ?_, ?_⟩
  · rw [List.map_append, List.map_singleton, SortedMap.ofList_append_singleton, h.values]
  · rw [List.map_append, List.map_singleton, SortedMap.ofList_append_singleton, h.byCode]
  · -- The code of the new value is no key of the map, so no value has it.
    have hnew : v.code ∉ added.map (·.code) := by
      rw [← map_fst_codes, ← SortedMap.mem_keys_ofList, ← h.byCode, SortedMap.mem_keys_iff, hfree]
      rintro ⟨id, hid⟩
      cases hid
    rw [List.map_append, List.map_singleton, ← List.concat_eq_append, List.nodup_concat]
    exact ⟨hnew, h.codes_nodup⟩

namespace Records

theorem idOfCode?_eq_some_iff (h : m.Records added) {code : String} {id : DimId} :
    m.idOfCode? code = some id ↔ ∃ v ∈ added, v.code = code ∧ v.id = id := by
  have hnodup : ((added.map fun v ↦ (v.code, v.id)).map Prod.fst).Nodup :=
    map_fst_codes added ▸ h.codes_nodup
  rw [idOfCode?, h.byCode, SortedMap.get?_ofList_eq_some_iff hnodup, List.mem_map]
  simp only [Prod.mk.injEq]

theorem of_value? (h : m.Records added) {id : DimId} (hv : m.value? id = some v) :
    v ∈ added ∧ v.id = id := by
  rw [value?, h.values] at hv
  obtain ⟨v', hv', heq⟩ := List.mem_map.mp (SortedMap.mem_of_get?_ofList hv)
  obtain ⟨rfl, rfl⟩ := Prod.mk.inj heq
  exact ⟨hv', rfl⟩

theorem exists_value? (h : m.Records added) (hv : v ∈ added) : ∃ w, m.value? v.id = some w := by
  rw [value?, h.values]
  exact SortedMap.exists_get?_ofList (e := (v.id, v)) (List.mem_map_of_mem hv)

theorem idOfCode?_of_value? (h : m.Records added) {id : DimId} (hv : m.value? id = some v) :
    m.idOfCode? v.code = some id := by
  obtain ⟨hadded, hid⟩ := h.of_value? hv
  exact h.idOfCode?_eq_some_iff.mpr ⟨v, hadded, rfl, hid⟩

theorem exists_sorted (h : m.Records added) : ∃ sorted : List DimensionValue,
    sorted.Perm added ∧ sorted.Pairwise (fun v w ↦ compare v.code w.code = .lt) ∧
      m.ids = sorted.map (·.id) := by
  have hnodup : ((added.map fun v ↦ (v.code, v.id)).map Prod.fst).Nodup :=
    map_fst_codes added ▸ h.codes_nodup
  -- The entries of the map are those of the values in another order.
  have hperm : m.byCode.toList.Perm (added.map fun v ↦ (v.code, v.id)) :=
    h.byCode ▸ SortedMap.toList_ofList_perm hnodup
  obtain ⟨sorted, hentries, hsorted⟩ := (congrFun₂ (List.eq_map_comp_perm _) _ _).mpr hperm
  refine ⟨sorted, hsorted, ?_, ?_⟩
  · exact List.pairwise_map.mp (hentries ▸ m.byCode.increasing)
  · rw [ids, SortedMap.values, hentries, List.map_map]
    rfl

theorem ids_perm (h : m.Records added) : m.ids.Perm (added.map (·.id)) := by
  obtain ⟨sorted, hsorted, -, hids⟩ := h.exists_sorted
  exact hids ▸ hsorted.map _

/-! ### What a number given once comes to -/

theorem length_ids_eq_size_iff (h : m.Records added) :
    m.ids.length = m.size ↔ (added.map (·.id)).Nodup := by
  have hlength : m.ids.length = (added.map fun v ↦ (v.id, v)).length := by
    rw [h.ids_perm.length_eq, List.length_map, List.length_map]
  rw [hlength, size, h.values, eq_comm, SortedMap.size_ofList_eq_length_iff, map_fst_ids]

theorem forall_value?_iff (h : m.Records added) :
    (∀ v ∈ added, m.value? v.id = some v) ↔ (added.map (·.id)).Nodup := by
  rw [List.nodup_map_iff_inj_on (List.Nodup.of_map _ h.codes_nodup)]
  constructor
  · intro hall v hv w hw hid
    exact Option.some.inj ((hall v hv).symm.trans (hid ▸ hall w hw))
  · intro hinj v hv
    obtain ⟨w, hw⟩ := h.exists_value? hv
    obtain ⟨hadded, hid⟩ := h.of_value? hw
    rw [hw, hinj w hadded v hv hid]

theorem forall_idOfCode?_iff (h : m.Records added) :
    (∀ code id, m.idOfCode? code = some id → ∃ v, m.value? id = some v ∧ v.code = code) ↔
      ∀ v ∈ added, m.value? v.id = some v := by
  constructor
  · intro hall v hv
    obtain ⟨w, hw, hcode⟩ := hall v.code v.id (h.idOfCode?_eq_some_iff.mpr ⟨v, hv, rfl, rfl⟩)
    -- A code was added once, so the value that is found is the value itself.
    rw [hw, List.inj_on_of_nodup_map h.codes_nodup (h.of_value? hw).1 hv hcode]
  · rintro hall code id hcode
    obtain ⟨v, hv, rfl, rfl⟩ := h.idOfCode?_eq_some_iff.mp hcode
    exact ⟨v, hall v hv, rfl⟩

end Records

theorem Linked.map_id_listed (h : m.Linked) : m.listed.map (·.id) = m.ids := by
  have hids : ∀ l : List DimId, (∀ id ∈ l, ∃ v, m.value? id = some v) →
      (l.filterMap m.value?).map (·.id) = l := by
    intro l hl
    induction l with
    | nil => rfl
    | cons id rest ih =>
      obtain ⟨⟨v, hv⟩, hrest⟩ := List.forall_mem_cons.mp hl
      rw [List.filterMap_cons_some hv, List.map_cons, h.own id v hv, ih hrest]
  exact hids m.ids fun id ↦ h.of_mem_ids

theorem Records.listed_increasing_iff (h : m.Records added) (hlinked : m.Linked) :
    m.listed.Pairwise (fun v w ↦ compare v.code w.code = .lt) ↔ m.ids.Nodup := by
  constructor
  · intro hincreasing
    have hinj : ∀ v ∈ m.listed, ∀ w ∈ m.listed, v.id = w.id → v = w := by
      intro v hv w hw hid
      obtain ⟨i, -, hi⟩ := List.mem_filterMap.mp hv
      obtain ⟨j, -, hj⟩ := List.mem_filterMap.mp hw
      rw [← hlinked.own i v hi, hid, hlinked.own j w hj] at hi
      exact Option.some.inj (hi.symm.trans hj)
    rw [← hlinked.map_id_listed]
    exact (List.nodup_map_iff_inj_on (nodup_of_increasing hincreasing)).mpr hinj
  · intro hnodup
    have hfound := h.forall_value?_iff.mpr (h.ids_perm.nodup_iff.mp hnodup)
    obtain ⟨sorted, hsorted, hincreasing, hids⟩ := h.exists_sorted
    -- Every number finds its own value, so the values are listed as they are sorted.
    have hlisted : m.listed = sorted := by
      calc m.listed = sorted.filterMap fun v ↦ m.value? v.id := by
            rw [listed, hids, List.filterMap_map]
            rfl
        _ = sorted.filterMap some :=
            List.filterMap_congr fun v hv ↦ hfound v (hsorted.mem_iff.mp hv)
        _ = sorted := List.filterMap_some
    exact hlisted ▸ hincreasing

end MasterList

/-! ## Registries -/

/-- A call that may change a registry. -/
inductive RegistryCall where
  | registerExtra (name : String)
  | add (d : Dimension) (v : DimensionValue)

namespace Registry

variable {r r' : Registry} {d : Dimension} {v : DimensionValue}

/-- The registry after a call, refused or not. A refused value may have made its dimension known. -/
def after (r : Registry) : RegistryCall → Registry
  | .registerExtra name => r.registerExtra name
  | .add d v => (r.add d v).toOption.getD (r.register d)

def afterAll (r : Registry) (calls : List RegistryCall) : Registry := calls.foldl after r

/-- The values that a call adds to the master list of a dimension. -/
def addedBy (r : Registry) (d : Dimension) : RegistryCall → List DimensionValue
  | .registerExtra _ => []
  | .add d' v => if d' = d ∧ (r.add d' v).isOk then [v] else []

/-- The values that a sequence of calls adds to the master list of a dimension, without those that
are refused. -/
def addedByAll (r : Registry) (d : Dimension) : List RegistryCall → List DimensionValue
  | [] => []
  | c :: rest => r.addedBy d c ++ (r.after c).addedByAll d rest

/-- The master list of a dimension, which is empty as long as the dimension is not known. -/
def listOrEmpty (r : Registry) (d : Dimension) : MasterList := (r.lists.get? d).getD {}

theorem listOrEmpty_of_list {m : MasterList} (h : r.list d = .ok m) : r.listOrEmpty d = m := by
  rw [listOrEmpty, list_eq_ok_iff.mp h]
  rfl

theorem listOrEmpty_registerExtra (r : Registry) (name : String) (d : Dimension) :
    (r.registerExtra name).listOrEmpty d = r.listOrEmpty d := by
  rw [registerExtra]
  split
  · rfl
  · rename_i hnew
    rw [listOrEmpty, listOrEmpty, SortedMap.get?_insert]
    split_ifs with hd
    · rw [hd, Option.not_isSome_iff_eq_none.mp hnew]
      rfl
    · rfl

theorem listOrEmpty_register (r : Registry) (d' d : Dimension) :
    (r.register d').listOrEmpty d = r.listOrEmpty d := by
  cases d' with
  | extra name => exact r.listOrEmpty_registerExtra name d
  | _ => rfl

theorem add_eq_ok (h : r.add d v = .ok r') : ∃ m, (r.listOrEmpty d).insert? v = some m ∧
    ∀ d', r'.listOrEmpty d' = if d' = d then m else r.listOrEmpty d' := by
  rw [add] at h
  obtain ⟨found, hfound, h⟩ := bind_eq_ok.mp h
  split at h
  · rename_i m hinsert
    cases h
    refine ⟨m, ?_, fun d' ↦ ?_⟩
    · rw [← r.listOrEmpty_register d, listOrEmpty_of_list hfound, hinsert]
    · rw [listOrEmpty, SortedMap.get?_insert]
      split_ifs
      · rfl
      · exact r.listOrEmpty_register d d'
  · cases h

/-- A refused value has not even made its dimension known, since a dimension that was not known has
no codes that could be taken. -/
theorem register_of_add_eq_error {e : DimensionError} (h : r.add d v = .error e) :
    r.register d = r := by
  cases d with
  | extra name =>
    rw [register, registerExtra]
    split
    · rfl
    · rename_i hnew
      rw [add, register, registerExtra, if_neg hnew] at h
      have hlist : Registry.list ⟨r.lists.insert (.extra name) {}⟩ (.extra name) = .ok {} :=
        list_eq_ok_iff.mpr (SortedMap.get?_insert_self _ _ _)
      rw [hlist] at h
      cases h
  | _ => rfl

/-- A value that is refused changes nothing. -/
theorem after_of_add_eq_error {e : DimensionError} (h : r.add d v = .error e) :
    r.after (.add d v) = r := by
  rw [after, h]
  exact register_of_add_eq_error h

theorem Built.after (h : r.Built) (c : RegistryCall) : (r.after c).Built := by
  cases c with
  | registerExtra name => exact h.registerExtra name
  | add d v =>
    cases hadd : r.add d v with
    | ok r' =>
      rw [Registry.after, hadd]
      exact h.add hadd
    | error e =>
      rw [after_of_add_eq_error hadd]
      exact h

theorem built_afterAll (calls : List RegistryCall) : (initial.afterAll calls).Built := by
  have hfrom : ∀ r : Registry, r.Built → (r.afterAll calls).Built := by
    induction calls with
    | nil => exact fun _ hr ↦ hr
    | cons c rest ih => exact fun r hr ↦ ih (r.after c) (hr.after c)
  exact hfrom initial .initial

theorem records_after {added : List DimensionValue} (h : (r.listOrEmpty d).Records added)
    (c : RegistryCall) : ((r.after c).listOrEmpty d).Records (added ++ r.addedBy d c) := by
  cases c with
  | registerExtra name =>
    rw [after, listOrEmpty_registerExtra, addedBy, List.append_nil]
    exact h
  | add d' v =>
    cases hadd : r.add d' v with
    | error e =>
      rw [after_of_add_eq_error hadd, addedBy, hadd, if_neg fun hok ↦ Bool.noConfusion hok.2,
        List.append_nil]
      exact h
    | ok r' =>
      obtain ⟨m, hinsert, hlists⟩ := add_eq_ok hadd
      have hafter : r.after (.add d' v) = r' := by
        rw [after, hadd]
        rfl
      rw [hafter, hlists]
      by_cases hd : d = d'
      · subst hd
        rw [if_pos rfl, addedBy, hadd, if_pos ⟨rfl, rfl⟩]
        exact h.insert hinsert
      · rw [if_neg hd, addedBy, if_neg fun hsame ↦ hd hsame.1.symm, List.append_nil]
        exact h

theorem records_afterAll {added : List DimensionValue} (h : (r.listOrEmpty d).Records added)
    (calls : List RegistryCall) :
    ((r.afterAll calls).listOrEmpty d).Records (added ++ r.addedByAll d calls) := by
  induction calls generalizing r added with
  | nil => exact (List.append_nil added).symm ▸ h
  | cons c rest ih =>
    rw [addedByAll, ← List.append_assoc]
    exact ih (records_after h c)

theorem listOrEmpty_initial (d : Dimension) : initial.listOrEmpty d = {} := by
  rw [listOrEmpty]
  cases hfound : initial.lists.get? d with
  | none => rfl
  | some m =>
    obtain ⟨d', -, heq⟩ := List.mem_map.mp (SortedMap.mem_of_get?_ofList hfound)
    exact (Prod.mk.inj heq).2.symm

theorem records_list {calls : List RegistryCall} {m : MasterList}
    (h : (initial.afterAll calls).list d = .ok m) : m.Records (initial.addedByAll d calls) := by
  have hempty : (initial.listOrEmpty d).Records [] :=
    (listOrEmpty_initial d).symm ▸ MasterList.records_empty
  exact listOrEmpty_of_list h ▸ records_afterAll hempty calls

theorem idOfCode_eq_ok_iff {m : MasterList} (h : r.list d = .ok m) {code : String} {id : DimId} :
    r.idOfCode d code = .ok id ↔ m.idOfCode? code = some id := by
  rw [idOfCode, h, ok_bind]
  cases m.idOfCode? code with
  | none => simp
  | some found => simp

theorem value_eq_ok_iff {m : MasterList} (h : r.list d = .ok m) {id : DimId} :
    r.value d id = .ok v ↔ m.value? id = some v := by
  rw [value, h, ok_bind]
  cases m.value? id with
  | none => simp
  | some found => simp

/-- **Codes and numbers.** After any sequence of calls, a code of a dimension stands for the number
of the value that was added with it, a value that is found by its number is found by its code, and
the numbers are listed in the order of the codes. That codes and numbers are inverse to each other,
and each of the things that presume it, holds exactly if the calls added no two values of one
number; a value that is refused changes nothing. -/
theorem numbering_inverse_iff (calls : List RegistryCall) (d : Dimension) (m : MasterList)
    (hm : (initial.afterAll calls).list d = .ok m) :
    let r := initial.afterAll calls
    let added := initial.addedByAll d calls
    (∀ d' v e, r.add d' v = .error e → r.after (.add d' v) = r) ∧
    (∀ code id, r.idOfCode d code = .ok id ↔ ∃ v ∈ added, v.code = code ∧ v.id = id) ∧
    (∀ id v, r.value d id = .ok v → v.id = id ∧ r.idOfCode d v.code = .ok id) ∧
    (∃ sorted : List DimensionValue, sorted.Perm added ∧
      sorted.Pairwise (fun v w ↦ compare v.code w.code = .lt) ∧ r.ids d = .ok (sorted.map (·.id))) ∧
    r.ids d = .ok (m.listed.map (·.id)) ∧
    [(added.map (·.id)).Nodup,
      ∀ code id, r.idOfCode d code = .ok id ↔ ∃ v, r.value d id = .ok v ∧ v.code = code,
      m.ids.Nodup,
      m.ids.length = m.size,
      m.listed.Pairwise (fun v w ↦ compare v.code w.code = .lt),
      ∀ v ∈ added, r.value d v.id = .ok v].TFAE := by
  intro r added
  have hm : r.list d = .ok m := hm
  have hrecords : m.Records added := records_list hm
  have hlinked : m.Linked := (built_afterAll calls).linked d m (list_eq_ok_iff.mp hm)
  have hids : r.ids d = .ok m.ids := by
    rw [Registry.ids, hm]
    rfl
  simp only [idOfCode_eq_ok_iff hm, value_eq_ok_iff hm, hids]
  refine ⟨fun d' v e ↦ after_of_add_eq_error, fun code id ↦ hrecords.idOfCode?_eq_some_iff,
    fun id v hv ↦ ⟨hlinked.own id v hv, hrecords.idOfCode?_of_value? hv⟩, ?_, ?_, ?_⟩
  · obtain ⟨sorted, hsorted, hincreasing, hsame⟩ := hrecords.exists_sorted
    exact ⟨sorted, hsorted, hincreasing, congrArg Except.ok hsame⟩
  · rw [hlinked.map_id_listed]
  · tfae_have 1 ↔ 6 := hrecords.forall_value?_iff.symm
    tfae_have 2 ↔ 6 := by
      rw [← hrecords.forall_idOfCode?_iff]
      refine forall₂_congr fun code id ↦ ⟨Iff.mp, fun hcode ↦ ⟨hcode, ?_⟩⟩
      rintro ⟨v, hv, rfl⟩
      exact hrecords.idOfCode?_of_value? hv
    tfae_have 3 ↔ 1 := hrecords.ids_perm.nodup_iff
    tfae_have 4 ↔ 1 := hrecords.length_ids_eq_size_iff
    tfae_have 5 ↔ 3 := hrecords.listed_increasing_iff hlinked
    tfae_finish

/-- Two org units, the second one added under the number of the first one. -/
def renumberedCalls : List RegistryCall :=
  [.add .orgUnit { id := 1, code := "A" }, .add .orgUnit { id := 1, code := "B" }]

/-- The master list of org units after both calls. -/
def renumberedList : MasterList := (initial.afterAll renumberedCalls).listOrEmpty .orgUnit

theorem numbering_inverse_iff_renumbered :
    (initial.afterAll renumberedCalls).list .orgUnit = .ok renumberedList ∧
      ¬ (renumberedList.ids.length = renumberedList.size) := by
  have hlist : (initial.afterAll renumberedCalls).list .orgUnit = .ok renumberedList := by
    decide
  obtain ⟨-, -, -, -, -, htfae⟩ :=
    numbering_inverse_iff renumberedCalls .orgUnit renumberedList hlist
  -- The record gives the number 1 to both values.
  refine ⟨hlist, fun hlength ↦ ?_⟩
  have hnodup := (htfae.out 3 0).mp hlength
  exact absurd hnodup (by decide)

/-- The second value is not refused. Both codes then stand for its number, which finds it alone, so
the code of the first value no longer stands for a number that finds it. -/
theorem number_taken_over :
    let r := initial.afterAll renumberedCalls
    initial.addedByAll .orgUnit renumberedCalls =
      [{ id := 1, code := "A" }, { id := 1, code := "B" }] ∧
    r.idOfCode .orgUnit "A" = .ok 1 ∧ r.value .orgUnit 1 = .ok { id := 1, code := "B" } ∧
    r.ids .orgUnit = .ok [1, 1] ∧ renumberedList.size = 1 ∧
    ¬ ∀ code id, r.idOfCode .orgUnit code = .ok id ↔
      ∃ v, r.value .orgUnit id = .ok v ∧ v.code = code := by
  have hvalue : (initial.afterAll renumberedCalls).value .orgUnit 1 =
      .ok { id := 1, code := "B" } := by decide
  have hcode : (initial.afterAll renumberedCalls).idOfCode .orgUnit "A" = .ok 1 := by decide
  refine ⟨by decide, hcode, hvalue, by decide, by decide, fun hall ↦ ?_⟩
  obtain ⟨v, hv, hsame⟩ := (hall "A" 1).mp hcode
  rw [hvalue] at hv
  cases hv
  exact absurd hsame (by decide)

end Registry

end PlanLedger
