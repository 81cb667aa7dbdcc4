import Mathlib.Data.List.Dedup
import Mathlib.Data.List.Induction
import Mathlib.Data.List.Nodup
import PlanLedger.SortedMap.Basic

/-!
# Look-ups in sorted maps

A sorted map is determined by its look-ups: an entry is in the list of a map exactly when its key
gives its value, and two maps with the same look-ups are the same map. Every operation is described
here by the look-ups of its result, so that nothing that uses maps has to open the list of entries.

Keys that compare as equal are assumed to be equal throughout. Without that a look-up would find a
value under a key that is not its own.
-/

namespace PlanLedger

variable {κ ν μ : Type} [Ord κ]

/-! ## Increasing lists -/

theorem ne_of_compare_eq_lt [Std.ReflOrd κ] {k k' : κ} (h : compare k k' = .lt) : k ≠ k' := by
  rintro rfl
  rw [Std.ReflOrd.compare_self] at h
  cases h

theorem nodup_of_increasing [Std.TransOrd κ] {α : Type} {f : α → κ} {l : List α}
    (h : l.Pairwise fun a b ↦ compare (f a) (f b) = .lt) : l.Nodup :=
  h.imp fun {_ _} hab heq ↦ ne_of_compare_eq_lt hab (congrArg f heq)

/-- Two lists that increase strictly by the same key and have the same members are equal. -/
theorem eq_of_increasing [Std.TransOrd κ] {α : Type} {f : α → κ} {l l' : List α}
    (h : l.Pairwise fun a b ↦ compare (f a) (f b) = .lt)
    (h' : l'.Pairwise fun a b ↦ compare (f a) (f b) = .lt)
    (hmem : ∀ a, a ∈ l ↔ a ∈ l') : l = l' := by
  have hperm : l.Perm l' :=
    (List.perm_ext_iff_of_nodup (nodup_of_increasing h) (nodup_of_increasing h')).mpr hmem
  refine hperm.eq_of_pairwise (fun a b _ _ hab hba ↦ ?_) h h'
  rw [Std.OrientedCmp.gt_of_lt hab] at hba
  exact Ordering.noConfusion hba

namespace SortedMap

/-! ## Look-ups and entries -/

@[simp] theorem get?_empty (k : κ) : (∅ : SortedMap κ ν).get? k = none := rfl

variable [Std.LawfulEqOrd κ] [DecidableEq κ]

theorem lookup_cons (k : κ) (e : κ × ν) (l : List (κ × ν)) :
    lookup k (e :: l) = if k = e.1 then some e.2 else lookup k l := by
  rw [lookup]
  simp only [Std.compare_eq_iff_eq]

theorem lookup_eq_some_iff {k : κ} {v : ν} {l : List (κ × ν)}
    (h : l.Pairwise fun a b ↦ compare a.1 b.1 = .lt) : lookup k l = some v ↔ (k, v) ∈ l := by
  induction l with
  | nil => simp [lookup]
  | cons e rest ih =>
    obtain ⟨he, hr⟩ := List.pairwise_cons.mp h
    rw [lookup_cons, List.mem_cons]
    by_cases hk : k = e.1
    · rw [if_pos hk, Option.some_inj]
      constructor
      · rintro rfl
        exact .inl (Prod.ext hk rfl)
      · rintro (rfl | hmem)
        · rfl
        · -- A later entry cannot have the key of the first one.
          exact absurd hk.symm (ne_of_compare_eq_lt (he _ hmem))
    · rw [if_neg hk, ih hr]
      refine ⟨.inr, fun hmem ↦ hmem.resolve_left ?_⟩
      rintro rfl
      exact hk rfl

theorem get?_eq_some_iff {m : SortedMap κ ν} {k : κ} {v : ν} :
    m.get? k = some v ↔ (k, v) ∈ m.toList := lookup_eq_some_iff m.increasing

theorem mem_keys_iff {m : SortedMap κ ν} {k : κ} : k ∈ m.keys ↔ ∃ v, m.get? k = some v := by
  simp only [keys, List.mem_map, get?_eq_some_iff]
  constructor
  · rintro ⟨⟨k', v⟩, he, rfl⟩
    exact ⟨v, he⟩
  · rintro ⟨v, he⟩
    exact ⟨(k, v), he, rfl⟩

theorem mem_values_iff {m : SortedMap κ ν} {v : ν} : v ∈ m.values ↔ ∃ k, m.get? k = some v := by
  simp only [values, List.mem_map, get?_eq_some_iff]
  constructor
  · rintro ⟨⟨k, v'⟩, he, rfl⟩
    exact ⟨k, he⟩
  · rintro ⟨k, he⟩
    exact ⟨(k, v), he, rfl⟩

theorem contains_iff {m : SortedMap κ ν} {k : κ} : m.contains k = true ↔ k ∈ m.keys := by
  rw [contains, Option.isSome_iff_exists, mem_keys_iff]

theorem ext_get? [Std.TransOrd κ] {m m' : SortedMap κ ν} (h : ∀ k, m.get? k = m'.get? k) :
    m = m' := by
  have hlist : m.toList = m'.toList := by
    refine eq_of_increasing (f := Prod.fst) m.increasing m'.increasing fun e ↦ ?_
    obtain ⟨k, v⟩ := e
    rw [← get?_eq_some_iff, ← get?_eq_some_iff, h]
  cases m
  cases m'
  simpa using hlist

/-! ## Selection and change of values -/

theorem get?_filter (p : κ → ν → Bool) (m : SortedMap κ ν) (k : κ) :
    (m.filter p).get? k = (m.get? k).filter (p k) := by
  refine Option.ext fun v ↦ ?_
  rw [get?_eq_some_iff, Option.filter_eq_some_iff, get?_eq_some_iff, filter, List.mem_filter]

theorem get?_erase (m : SortedMap κ ν) (k k' : κ) :
    (m.erase k).get? k' = if k' = k then none else m.get? k' := by
  rw [erase, get?_filter]
  by_cases h : k' = k
  · subst h
    simp
  · rw [if_neg h]
    have hne : compare k k' ≠ .eq := fun hc ↦ h (Std.compare_eq_iff_eq.mp hc).symm
    cases m.get? k' <;> simp [hne]

theorem get?_mapValues (f : κ → ν → μ) (m : SortedMap κ ν) (k : κ) :
    (m.mapValues f).get? k = (m.get? k).map (f k) := by
  refine Option.ext fun v ↦ ?_
  rw [get?_eq_some_iff, Option.map_eq_some_iff, mapValues, List.mem_map]
  constructor
  · rintro ⟨⟨k', v'⟩, he, heq⟩
    obtain ⟨rfl, rfl⟩ := Prod.mk.inj heq
    exact ⟨v', get?_eq_some_iff.mpr he, rfl⟩
  · rintro ⟨v', hv, rfl⟩
    exact ⟨(k, v'), get?_eq_some_iff.mp hv, rfl⟩

theorem get?_modify (m : SortedMap κ ν) (k : κ) (f : ν → ν) (k' : κ) :
    (m.modify k f).get? k' = if k' = k then (m.get? k).map f else m.get? k' := by
  rw [modify, get?_mapValues]
  by_cases h : k' = k
  · subst h
    rw [if_pos rfl]
    simp
  · rw [if_neg h]
    have hne : compare k k' ≠ .eq := fun hc ↦ h (Std.compare_eq_iff_eq.mp hc).symm
    cases m.get? k' <;> simp [hne]

/-! ## Insertion -/

theorem lookup_place (k : κ) (v : ν) (l : List (κ × ν)) (k' : κ) :
    lookup k' (place k v l) = if k' = k then some v else lookup k' l := by
  induction l with
  | nil => rw [place, lookup_cons]
  | cons e rest ih =>
    rw [place]
    split
    · rw [lookup_cons]
    · rename_i hk
      rw [lookup_cons, lookup_cons, ← Std.compare_eq_iff_eq.mp hk]
      by_cases h : k' = k
      · rw [if_pos h, if_pos h]
      · rw [if_neg h, if_neg h, if_neg h]
    · rename_i hk
      have hne : k ≠ e.1 := by
        intro heq
        rw [Std.compare_eq_iff_eq.mpr heq] at hk
        exact Ordering.noConfusion hk
      rw [lookup_cons, lookup_cons, ih]
      by_cases h : k' = k
      · rw [if_pos h, if_pos h, if_neg (h ▸ hne)]
      · rw [if_neg h, if_neg h]

variable [Std.TransOrd κ]

theorem get?_insert (m : SortedMap κ ν) (k : κ) (v : ν) (k' : κ) :
    (m.insert k v).get? k' = if k' = k then some v else m.get? k' :=
  lookup_place k v m.toList k'

@[simp] theorem get?_insert_self (m : SortedMap κ ν) (k : κ) (v : ν) :
    (m.insert k v).get? k = some v := by
  rw [get?_insert, if_pos rfl]

theorem get?_insert_of_ne (m : SortedMap κ ν) {k k' : κ} (v : ν) (h : k' ≠ k) :
    (m.insert k v).get? k' = m.get? k' := by
  rw [get?_insert, if_neg h]

theorem insert_insert (m : SortedMap κ ν) (k : κ) (v v' : ν) :
    (m.insert k v).insert k v' = m.insert k v' := by
  refine ext_get? fun k' ↦ ?_
  simp only [get?_insert]
  by_cases h : k' = k
  · rw [if_pos h, if_pos h]
  · rw [if_neg h, if_neg h, if_neg h]

theorem insert_comm (m : SortedMap κ ν) {k k' : κ} (h : k ≠ k') (v v' : ν) :
    (m.insert k v).insert k' v' = (m.insert k' v').insert k v := by
  refine ext_get? fun k'' ↦ ?_
  simp only [get?_insert]
  by_cases hk : k'' = k
  · rw [if_pos hk, if_pos hk, if_neg (hk ▸ h)]
  · rw [if_neg hk, if_neg hk]

omit [Std.LawfulEqOrd κ] [DecidableEq κ] in
theorem toList_insert_of_forall_lt {m : SortedMap κ ν} {k : κ} {v : ν}
    (h : ∀ k' ∈ m.keys, compare k' k = .lt) : (m.insert k v).toList = m.toList ++ [(k, v)] := by
  have hplace (l : List (κ × ν)) (hl : ∀ e ∈ l, compare e.1 k = .lt) :
      place k v l = l ++ [(k, v)] := by
    induction l with
    | nil => rfl
    | cons e rest ih =>
      have hgt : compare k e.1 = .gt := Std.OrientedCmp.gt_of_lt (hl e List.mem_cons_self)
      rw [place, hgt]
      exact congrArg (e :: ·) (ih fun e' he' ↦ hl e' (List.mem_cons_of_mem _ he'))
  exact hplace m.toList fun e he ↦ h e.1 (List.mem_map_of_mem he)

omit [Std.LawfulEqOrd κ] [DecidableEq κ] in
theorem insertMany_append (m : SortedMap κ ν) (l l' : List (κ × ν)) :
    m.insertMany (l ++ l') = (m.insertMany l).insertMany l' := List.foldl_append

omit [Std.LawfulEqOrd κ] [DecidableEq κ] in
theorem ofList_append_singleton (l : List (κ × ν)) (e : κ × ν) :
    ofList (l ++ [e]) = (ofList l).insert e.1 e.2 := by
  rw [ofList, insertMany_append]
  rfl

/-- The value of a key in the map of a list of pairs is that of a pair of the list. -/
theorem mem_of_get?_ofList {l : List (κ × ν)} {k : κ} {v : ν} (h : (ofList l).get? k = some v) :
    (k, v) ∈ l := by
  -- Later pairs overwrite earlier ones, so the induction is from the end.
  induction l using List.reverseRecOn with
  | nil => cases h
  | append_singleton l e ih =>
    rw [ofList_append_singleton, get?_insert] at h
    rw [List.mem_append, List.mem_singleton]
    by_cases hk : k = e.1
    · rw [if_pos hk, Option.some_inj] at h
      exact .inr (Prod.ext hk h.symm)
    · rw [if_neg hk] at h
      exact .inl (ih h)

theorem exists_get?_ofList {l : List (κ × ν)} {e : κ × ν} (h : e ∈ l) :
    ∃ v, (ofList l).get? e.1 = some v := by
  induction l using List.reverseRecOn with
  | nil => exact absurd h List.not_mem_nil
  | append_singleton l e' ih =>
    rw [ofList_append_singleton, get?_insert]
    by_cases hk : e.1 = e'.1
    · exact ⟨e'.2, if_pos hk⟩
    · rw [if_neg hk]
      rcases List.mem_append.mp h with h | h
      · exact ih h
      · rw [List.mem_singleton.mp h] at hk
        exact absurd rfl hk

theorem mem_keys_ofList {l : List (κ × ν)} {k : κ} : k ∈ (ofList l).keys ↔ k ∈ l.map Prod.fst := by
  rw [mem_keys_iff, List.mem_map]
  constructor
  · rintro ⟨v, hv⟩
    exact ⟨(k, v), mem_of_get?_ofList hv, rfl⟩
  · rintro ⟨e, he, rfl⟩
    exact exists_get?_ofList he

theorem get?_ofList_eq_some_iff {l : List (κ × ν)} (h : (l.map Prod.fst).Nodup) {k : κ} {v : ν} :
    (ofList l).get? k = some v ↔ (k, v) ∈ l := by
  refine ⟨mem_of_get?_ofList, fun hmem ↦ ?_⟩
  obtain ⟨v', hv'⟩ := exists_get?_ofList hmem
  have hsame : (k, v') = (k, v) := List.inj_on_of_nodup_map h (mem_of_get?_ofList hv') hmem rfl
  rw [hv', (Prod.mk.inj hsame).2]

theorem toList_ofList_perm {l : List (κ × ν)} (h : (l.map Prod.fst).Nodup) :
    (ofList l).toList.Perm l := by
  refine (List.perm_ext_iff_of_nodup (nodup_of_increasing (ofList l).increasing)
    (List.Nodup.of_map _ h)).mpr fun e ↦ ?_
  rw [← get?_ofList_eq_some_iff h, get?_eq_some_iff]

omit [Std.LawfulEqOrd κ] [DecidableEq κ] in
theorem nodup_keys (m : SortedMap κ ν) : m.keys.Nodup :=
  nodup_of_increasing (f := id) (List.pairwise_map.mpr m.increasing)

/-- The map of a list of pairs has as many entries as the list exactly if no key comes twice. -/
theorem size_ofList_eq_length_iff {l : List (κ × ν)} :
    (ofList l).size = l.length ↔ (l.map Prod.fst).Nodup := by
  have hkeys : (ofList l).keys.Perm (l.map Prod.fst).dedup :=
    (List.perm_ext_iff_of_nodup (nodup_keys _) (List.nodup_dedup _)).mpr fun k ↦ by
      rw [mem_keys_ofList, List.mem_dedup]
  have hsize : (ofList l).size = (l.map Prod.fst).dedup.length := by
    rw [← hkeys.length_eq, keys, List.length_map, size]
  have hlength : (l.map Prod.fst).length = l.length := List.length_map _
  rw [hsize, ← hlength, ← List.dedup_eq_self]
  exact ⟨(List.dedup_sublist _).eq_of_length, congrArg List.length⟩

theorem get?_insertMany_of_forall_ne {m : SortedMap κ ν} {l : List (κ × ν)} {k : κ}
    (h : ∀ e ∈ l, e.1 ≠ k) : (m.insertMany l).get? k = m.get? k := by
  induction l generalizing m with
  | nil => rfl
  | cons e rest ih =>
    obtain ⟨he, hrest⟩ := List.forall_mem_cons.mp h
    exact (ih hrest).trans (get?_insert_of_ne m e.2 he.symm)

theorem get?_ofList_append_cons {l l' : List (κ × ν)} {k : κ} {v : ν} (h : ∀ e ∈ l', e.1 ≠ k) :
    (ofList (l ++ (k, v) :: l')).get? k = some v := by
  have hsplit : ofList (l ++ (k, v) :: l') = ((ofList l).insert k v).insertMany l' := by
    rw [ofList, insertMany_append]
    rfl
  rw [hsplit, get?_insertMany_of_forall_ne h, get?_insert_self]

/-- Of two maps laid over one another, the upper one decides where it has a value. -/
theorem get?_overlay_of_eq_some {lower upper : SortedMap κ ν} {k : κ} {v : ν}
    (h : upper.get? k = some v) : (lower.overlay upper).get? k = some v := by
  have hinsert (l : List (κ × ν)) (m : SortedMap κ ν)
      (hl : l.Pairwise fun a b ↦ compare a.1 b.1 = .lt) (hmem : (k, v) ∈ l) :
      (m.insertMany l).get? k = some v := by
    induction l generalizing m with
    | nil => exact absurd hmem List.not_mem_nil
    | cons e rest ih =>
      obtain ⟨he, hrest⟩ := List.pairwise_cons.mp hl
      rcases List.mem_cons.mp hmem with rfl | hmem
      · -- The keys after this one are greater.
        have hlater : ∀ e ∈ rest, e.1 ≠ k := fun e hlater ↦ (ne_of_compare_eq_lt (he e hlater)).symm
        exact (get?_insertMany_of_forall_ne hlater).trans (get?_insert_self m k v)
      · exact ih _ hrest hmem
  exact hinsert upper.toList lower upper.increasing (get?_eq_some_iff.mp h)

theorem get?_overlay (lower upper : SortedMap κ ν) (k : κ) :
    (lower.overlay upper).get? k = (upper.get? k).or (lower.get? k) := by
  cases h : upper.get? k with
  | some v => exact get?_overlay_of_eq_some h
  | none =>
    refine get?_insertMany_of_forall_ne fun e he heq ↦ ?_
    have hfound : upper.get? e.1 = some e.2 := get?_eq_some_iff.mpr he
    rw [heq, h] at hfound
    cases hfound

theorem mem_distinct_iff {l : List κ} {k : κ} : k ∈ distinct l ↔ k ∈ l := by
  rw [distinct, mem_keys_iff]
  constructor
  · rintro ⟨u, hu⟩
    obtain ⟨k', hk', heq⟩ := List.mem_map.mp (mem_of_get?_ofList hu)
    exact (Prod.mk.inj heq).1 ▸ hk'
  · exact fun hk ↦ exists_get?_ofList (List.mem_map.mpr ⟨k, hk, rfl⟩)

end SortedMap

end PlanLedger
