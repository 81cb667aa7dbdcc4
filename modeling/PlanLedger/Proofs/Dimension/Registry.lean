import PlanLedger.Dimension.Registry
import PlanLedger.Proofs.Refusal
import PlanLedger.Proofs.SortedMap.Lookup

/-!
# Registered values

A registry is built from the one of a fresh start by making extra dimensions known and adding
values. Although a value may take the place of another one with the same number, every code goes on
standing for a number under which a value is registered. So whatever a text resolves to, and
whatever is listed as a value of a dimension, is the number of a registered value of it.
-/

namespace PlanLedger

/-! ## Master lists -/

/-- Every value is found by its own number, and every code stands for the number of a value. -/
structure MasterList.Linked (m : MasterList) : Prop where
  own : ∀ id v, m.value? id = some v → v.id = id
  coded : ∀ code id, m.idOfCode? code = some id → ∃ v, m.value? id = some v

namespace MasterList

variable {m m' : MasterList}

theorem linked_empty : ({} : MasterList).Linked where
  own id v h := by cases h
  coded code id h := by cases h

theorem Linked.insert (h : m.Linked) {v : DimensionValue} (hinsert : m.insert? v = some m') :
    m'.Linked := by
  rw [insert?] at hinsert
  split at hinsert
  · cases hinsert
  · cases hinsert
    -- The value that is added is found by its number, whatever was found there before.
    have hvalue (id : DimId) :
        MasterList.value? ⟨m.values.insert v.id v, m.byCode.insert v.code v.id⟩ id =
          if id = v.id then some v else m.value? id := SortedMap.get?_insert _ _ _ _
    refine ⟨fun id v' hv' ↦ ?_, fun code id hcode ↦ ?_⟩
    · rw [hvalue] at hv'
      split_ifs at hv' with hid
      · cases hv'
        exact hid.symm
      · exact h.own id v' hv'
    · rw [hvalue]
      by_cases hid : id = v.id
      · exact ⟨v, if_pos hid⟩
      · rw [if_neg hid]
        rw [idOfCode?, SortedMap.get?_insert] at hcode
        split_ifs at hcode with hsame
        · cases hcode
          exact absurd rfl hid
        · exact h.coded code id hcode

theorem Linked.of_idOfLiteral? (h : m.Linked) {text : String} {id : DimId}
    (hid : m.idOfLiteral? text = some id) : ∃ v, m.value? id = some v := by
  rw [idOfLiteral?] at hid
  split at hid
  · rename_i found hcode
    cases hid
    exact h.coded text id hcode
  · obtain ⟨n, -, hid⟩ := Option.bind_eq_some_iff.mp hid
    obtain ⟨v, hv, hid⟩ := Option.bind_eq_some_iff.mp hid
    cases hid
    rw [h.own n v hv]
    exact ⟨v, hv⟩

theorem Linked.of_mem_ids (h : m.Linked) {id : DimId} (hid : id ∈ m.ids) :
    ∃ v, m.value? id = some v := by
  obtain ⟨code, hcode⟩ := SortedMap.mem_values_iff.mp hid
  exact h.coded code id hcode

end MasterList

/-! ## Registries -/

namespace Registry

/-- A registry that values were added to, one after the other. -/
inductive Built : Registry → Prop
  | initial : Built .initial
  | registerExtra {r : Registry} (h : Built r) (name : String) : Built (r.registerExtra name)
  | add {r r' : Registry} (h : Built r) {d : Dimension} {v : DimensionValue}
      (hadd : r.add d v = .ok r') : Built r'

/-- A number is that of a registered value of a dimension. -/
def Has (r : Registry) (d : Dimension) (id : DimId) : Prop := ∃ v, r.value d id = .ok v ∧ v.id = id

variable {r : Registry} {d : Dimension} {id : DimId}

theorem list_eq_ok_iff {m : MasterList} : r.list d = .ok m ↔ r.lists.get? d = some m := by
  rw [list]
  cases r.lists.get? d with
  | none => simp
  | some found => simp

private theorem linked_registerExtra (h : ∀ d m, r.lists.get? d = some m → m.Linked)
    (name : String) {m : MasterList} (hm : (r.registerExtra name).lists.get? d = some m) :
    m.Linked := by
  rw [registerExtra] at hm
  split at hm
  · exact h d m hm
  · rw [SortedMap.get?_insert] at hm
    split_ifs at hm
    · cases hm
      exact MasterList.linked_empty
    · exact h d m hm

theorem Built.linked (h : r.Built) : ∀ d m, r.lists.get? d = some m → m.Linked := by
  induction h with
  | initial =>
    intro d m hm
    obtain ⟨d', -, heq⟩ := List.mem_map.mp (SortedMap.mem_of_get?_ofList hm)
    rw [← (Prod.mk.inj heq).2]
    exact MasterList.linked_empty
  | registerExtra h name ih => exact fun d m ↦ linked_registerExtra ih name
  | @add r r' h d v hadd ih =>
    have hregister : ∀ d' m, (r.register d).lists.get? d' = some m → m.Linked := by
      cases d with
      | extra name => exact fun d' m ↦ linked_registerExtra ih name
      | _ => exact ih
    rw [Registry.add] at hadd
    obtain ⟨m, hm, hadd⟩ := bind_eq_ok.mp hadd
    intro d' m' hm'
    split at hadd
    · rename_i added hinsert
      cases hadd
      rw [SortedMap.get?_insert] at hm'
      split_ifs at hm'
      · cases hm'
        exact (hregister d m (list_eq_ok_iff.mp hm)).insert hinsert
      · exact hregister d' m' hm'
    · cases hadd

private theorem has_of_value? (h : r.Built) {m : MasterList} (hm : r.list d = .ok m)
    (hid : ∃ v, m.value? id = some v) : r.Has d id := by
  obtain ⟨v, hv⟩ := hid
  refine ⟨v, ?_, (h.linked d m (list_eq_ok_iff.mp hm)).own id v hv⟩
  rw [value, hm, ok_bind, hv]

theorem Built.has_of_resolve (h : r.Built) {text : String} (hid : r.resolve d text = .ok id) :
    r.Has d id := by
  rw [resolve] at hid
  obtain ⟨m, hm, hid⟩ := bind_eq_ok.mp hid
  split at hid
  · rename_i found hfound
    cases hid
    exact has_of_value? h hm ((h.linked d m (list_eq_ok_iff.mp hm)).of_idOfLiteral? hfound)
  · cases hid

theorem Built.has_of_mem_ids (h : r.Built) {ids : List DimId} (hids : r.ids d = .ok ids)
    (hid : id ∈ ids) : r.Has d id := by
  rw [Registry.ids] at hids
  obtain ⟨m, hm, hids⟩ := bind_eq_ok.mp hids
  cases hids
  exact has_of_value? h hm ((h.linked d m (list_eq_ok_iff.mp hm)).of_mem_ids hid)

theorem mem_dimensions_iff : d ∈ r.dimensions ↔ ∃ m, r.list d = .ok m := by
  rw [dimensions, SortedMap.mem_keys_iff]
  exact exists_congr fun _ ↦ list_eq_ok_iff.symm

theorem Has.mem_dimensions (h : r.Has d id) : d ∈ r.dimensions := by
  obtain ⟨v, hv, -⟩ := h
  rw [value] at hv
  obtain ⟨m, hm, -⟩ := bind_eq_ok.mp hv
  exact mem_dimensions_iff.mpr ⟨m, hm⟩

end Registry

end PlanLedger
