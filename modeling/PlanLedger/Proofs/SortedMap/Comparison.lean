import PlanLedger.Proofs.SortedMap.Lookup
import PlanLedger.SortedMap.Order

/-!
# Comparing maps with more entries

Sorted maps are compared entry by entry. Of two maps of which one has all entries of the other and
more, neither always comes first: the one with more entries comes first exactly if one of its
additional keys is below some key of the other, since that is where the lists part; if all
additional keys are above, the lists part where the shorter one ends.
-/

namespace PlanLedger.SortedMap

variable {κ ν : Type} [Ord κ] [Ord ν]

theorem compareEntries_cons_of_lt {e e' : κ × ν} {l l' : List (κ × ν)}
    (h : compare e.1 e'.1 = .lt) : compareEntries (e :: l) (e' :: l') = .lt := by
  rw [compareEntries, List.compareLex_cons_cons, compareBoth, compareLex, compareOn, h]
  rfl

variable [Std.LawfulEqOrd κ] [Std.LawfulEqOrd ν]

theorem compareEntries_cons_self (e : κ × ν) (l l' : List (κ × ν)) :
    compareEntries (e :: l) (e :: l') = compareEntries l l' := by
  have hself : compareBoth Prod.fst Prod.snd e e = .eq := compareBoth_eq_iff.mpr ⟨rfl, rfl⟩
  rw [compareEntries, List.compareLex_cons_cons, hself]
  rfl

variable [Std.TransOrd κ]

/-- A list of entries comes before a part of it exactly if one of the keys that are left out is
below one of the part. -/
theorem compareEntries_eq_lt_iff {l l' : List (κ × ν)}
    (hincreasing : l'.Pairwise fun a b ↦ compare a.1 b.1 = .lt) (h : l.Sublist l') :
    compareEntries l' l = .lt ↔
      ∃ k ∈ l'.map Prod.fst, k ∉ l.map Prod.fst ∧ ∃ k' ∈ l.map Prod.fst, compare k k' = .lt := by
  -- The induction is on how the part is chosen.
  induction h with
  | slnil => exact iff_of_false nofun (by simp)
  | @cons l l' e hsub ih =>
    obtain ⟨he, -⟩ := List.pairwise_cons.mp hincreasing
    cases l with
    | nil => exact iff_of_false nofun (by simp)
    | cons e' rest =>
      have hlt : compare e.1 e'.1 = .lt := he e' (hsub.subset List.mem_cons_self)
      refine iff_of_true (compareEntries_cons_of_lt hlt)
        ⟨e.1, List.mem_map_of_mem List.mem_cons_self, ?_, e'.1,
          List.mem_map_of_mem List.mem_cons_self, hlt⟩
      -- All keys of the part are above the first key.
      intro hmem
      obtain ⟨e'', he'', hkey⟩ := List.mem_map.mp hmem
      exact ne_of_compare_eq_lt (he e'' (hsub.subset he'')) hkey.symm
  | @cons_cons l l' e hsub ih =>
    obtain ⟨he, hrest⟩ := List.pairwise_cons.mp hincreasing
    have habove (k : κ) (hk : k ∈ l'.map Prod.fst) : compare e.1 k = .lt := by
      obtain ⟨e', he', rfl⟩ := List.mem_map.mp hk
      exact he e' he'
    rw [compareEntries_cons_self, ih hrest]
    simp only [List.map_cons, List.mem_cons, not_or]
    constructor
    · rintro ⟨k, hk, hleft, k', hk', hlt⟩
      exact ⟨k, .inr hk, ⟨(ne_of_compare_eq_lt (habove k hk)).symm, hleft⟩, k', .inr hk', hlt⟩
    · rintro ⟨k, hk, ⟨hne, hleft⟩, k', hk', hlt⟩
      have hk := hk.resolve_left hne
      refine ⟨k, hk, hleft, k', hk'.resolve_left ?_, hlt⟩
      rintro rfl
      have hgt := Std.OrientedCmp.gt_of_lt (habove k hk)
      rw [hlt] at hgt
      cases hgt

variable [DecidableEq κ]

omit [Ord ν] [Std.LawfulEqOrd ν] in
/-- Of a map that has all entries of another one the entries of the other are a part. -/
theorem sublist_of_extends {m m' : SortedMap κ ν}
    (h : ∀ k v, m.get? k = some v → m'.get? k = some v) : m.toList.Sublist m'.toList := by
  classical
  have hpart : m.toList = m'.toList.filter (· ∈ m.toList) := by
    refine eq_of_increasing (f := Prod.fst) m.increasing (m'.increasing.filter _) fun e ↦ ?_
    rw [List.mem_filter, decide_eq_true_iff, iff_and_self, ← get?_eq_some_iff, ← get?_eq_some_iff]
    exact h e.1 e.2
  exact hpart ▸ List.filter_sublist

/-- A map that has all entries of another one comes before it exactly if one of its other keys is
below a key of the other map. -/
theorem compare_eq_lt_iff_of_extends {m m' : SortedMap κ ν}
    (h : ∀ k v, m.get? k = some v → m'.get? k = some v) :
    compare m' m = .lt ↔ ∃ k ∈ m'.keys, k ∉ m.keys ∧ ∃ k' ∈ m.keys, compare k k' = .lt :=
  compareEntries_eq_lt_iff m'.increasing (sublist_of_extends h)

end PlanLedger.SortedMap
