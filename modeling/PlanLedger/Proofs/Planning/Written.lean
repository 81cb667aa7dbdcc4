import PlanLedger.Proofs.Planning.Accounts
import PlanLedger.Proofs.Store.Alike

/-!
# What cells hold after writes

Writes to different cells do not meet: each of them finds under its key what was there before all of
them. If they are truthful, the current values of a cell that was written are the ones its write
makes of what it found, and the current values of any other cell are the ones before. A batch that
was just created holds nothing but what is written to it.
-/

namespace PlanLedger.Write

variable {s : Store} {place : Cell → BatchId} {ws : List Write}

def OnDifferentCells (ws : List Write) : Prop := ws.Pairwise fun w w' ↦ w.key.cell ≠ w'.key.cell

theorem find?_applyAll_of_forall_ne {key : FactKey} (h : ∀ w ∈ ws, w.key ≠ key) :
    (applyAll s ws).find? key = s.find? key := by
  induction ws generalizing s with
  | nil => rfl
  | cons w rest ih =>
    obtain ⟨hw, hrest⟩ := List.forall_mem_cons.mp h
    exact (ih hrest).trans (Store.find?_written_of_ne s w.defaults w.change (Ne.symm hw))

theorem values?_applyAll_of_forall_ne {key : FactKey} (h : ∀ w ∈ ws, w.key ≠ key) :
    (applyAll s ws).values? key = s.values? key := by
  rw [Store.values?, Store.values?, find?_applyAll_of_forall_ne h]

theorem agreeOn_applyAll {cells : Cell → Prop} (s : Store) (h : ∀ w ∈ ws, ¬ cells w.key.cell) :
    Store.AgreeOn cells s (applyAll s ws) := by
  intro key hkey
  refine (find?_applyAll_of_forall_ne fun w hw heq ↦ ?_).symm
  exact h w hw (heq ▸ hkey)

theorem values?_applyAll (hdiffer : OnDifferentCells ws) {w : Write} (hw : w ∈ ws) :
    (applyAll s ws).values? w.key = some (w.change ((s.values? w.key).getD w.defaults)) := by
  induction ws generalizing s with
  | nil => exact absurd hw List.not_mem_nil
  | cons first rest ih =>
    obtain ⟨hfirst, hrest⟩ := List.pairwise_cons.mp hdiffer
    rcases List.mem_cons.mp hw with rfl | hw
    · -- No later write goes to the key.
      have hlater : ∀ v ∈ rest, v.key ≠ w.key := fun v hv hkey ↦
        hfirst v hv (congrArg FactKey.cell hkey.symm)
      refine (values?_applyAll_of_forall_ne hlater).trans ?_
      rw [applyTo, Store.values?_written, if_pos rfl]
    · have hkey : w.key ≠ first.key := fun hkey ↦
        hfirst w hw (congrArg FactKey.cell hkey.symm)
      refine (ih hrest hw).trans ?_
      rw [applyTo, Store.values?_written, if_neg hkey]

theorem currentValues?_applyAll_of_forall_ne {c : Cell} (h : ∀ w ∈ ws, w.key.cell ≠ c) :
    (applyAll s ws).currentValues? c = s.currentValues? c := by
  rw [Store.currentValues?, Store.currentValues?, currentFact?_applyAll_of_forall_ne h]

private theorem getLast?_onCell (hdiffer : OnDifferentCells ws) {w : Write} (hw : w ∈ ws) :
    (onCell w.key.cell ws).getLast? = some w := by
  induction ws using List.reverseRecOn with
  | nil => exact absurd hw List.not_mem_nil
  | append_singleton ws last ih =>
    obtain ⟨hbefore, -, hlast⟩ := List.pairwise_append.mp hdiffer
    rw [onCell, List.filter_append]
    rcases List.mem_append.mp hw with hw | hw
    · have hne := (hlast w hw last List.mem_cons_self).symm
      rw [List.filter_cons_of_neg (by simpa using hne), List.filter_nil, List.append_nil]
      exact ih hbefore hw
    · obtain rfl := List.mem_singleton.mp hw
      rw [List.filter_cons_of_pos (by simp), List.filter_nil, List.getLast?_concat]

/-- **Cells hold what was written.** After truthful writes to different cells, the current values of
a cell with a write are those that the write makes of what its key held before. -/
theorem currentValues?_applyAll (h : ∀ w ∈ ws, w.Truthful s place) (hdiffer : OnDifferentCells ws)
    {w : Write} (hw : w ∈ ws) : (applyAll s ws).currentValues? w.key.cell =
      some (w.change ((s.values? w.key).getD w.defaults)) := by
  obtain ⟨fact, hfind, hcurrent, -⟩ := currentFact?_applyAll h (getLast?_onCell hdiffer hw)
  rw [Store.currentValues?, hcurrent, ← values?_applyAll hdiffer hw, Store.values?, hfind]

/-- **Order of writes.** Truthful writes to different cells leave the same current values in any
order. -/
theorem readsAlike_applyAll_of_perm {ws' : List Write} (h : ∀ w ∈ ws, w.Truthful s place)
    (hdiffer : OnDifferentCells ws) (hperm : ws.Perm ws') :
    Store.ReadsAlike (applyAll s ws) (applyAll s ws') := by
  have h' : ∀ w ∈ ws', w.Truthful s place := fun w hw ↦ h w (hperm.mem_iff.mpr hw)
  have hdiffer' : OnDifferentCells ws' :=
    (hperm.pairwise_iff fun {_ _} hne ↦ hne.symm).mp hdiffer
  intro c
  by_cases hwritten : ∃ w ∈ ws, w.key.cell = c
  · obtain ⟨w, hw, rfl⟩ := hwritten
    rw [currentValues?_applyAll h hdiffer hw,
      currentValues?_applyAll h' hdiffer' (hperm.mem_iff.mp hw)]
  · have hnone : ∀ w ∈ ws, w.key.cell ≠ c := fun w hw hcell ↦ hwritten ⟨w, hw, hcell⟩
    rw [currentValues?_applyAll_of_forall_ne hnone,
      currentValues?_applyAll_of_forall_ne fun w hw ↦ hnone w (hperm.mem_iff.mpr hw)]

end PlanLedger.Write

/-! ## New batches -/

namespace PlanLedger

theorem Store.values?_next_batch {s : Store} (hs : s.WellFormed) (batch : Batch) (c : Cell) :
    (s.withBatch batch).values? (c.inBatch (s.lastBatch + 1)) = none := by
  refine Option.eq_none_iff_forall_ne_some.mpr fun values hvalues ↦ ?_
  obtain ⟨fact, hfact, -⟩ := Option.map_eq_some_iff.mp hvalues
  obtain ⟨hmem, hkey⟩ := find?_eq_some_iff.mp hfact
  obtain ⟨stored, hstored, -⟩ := hs.exists_batch (s := s) hmem
  rw [hkey] at hstored
  exact absurd (hs.contents.batch_le _ _ hstored) (Nat.not_succ_le_self _)

/-- A batch that was just created holds what was written to it, and nothing else. -/
theorem Write.perm_readings_of_newBatch {s : Store} (hs : s.WellFormed) (batch : Batch)
    {ws : List Write} (hdiffer : OnDifferentCells ws)
    (hbatch : ∀ w ∈ ws, w.key.batch = s.lastBatch + 1) :
    (((applyAll (s.withBatch batch) ws).factsIn (s.lastBatch + 1)).map Fact.reading).Perm
      (ws.map fun w ↦ (w.key.cell, w.change w.defaults)) := by
  have hkey : ∀ w ∈ ws, w.key = w.key.cell.inBatch (s.lastBatch + 1) := by
    intro w hw
    rw [← hbatch w hw]
    rfl
  have hwritten : ∀ w ∈ ws, (applyAll (s.withBatch batch) ws).values? w.key =
      some (w.change w.defaults) := by
    intro w hw
    rw [values?_applyAll hdiffer hw, hkey w hw, Store.values?_next_batch hs]
    rfl
  have hnodup : (ws.map fun w ↦ (w.key.cell, w.change w.defaults)).Nodup :=
    List.pairwise_map.mpr (hdiffer.imp fun {a b} hne heq ↦ hne (congrArg Prod.fst heq))
  refine (List.perm_ext_iff_of_nodup (nodup_of_increasing (f := Prod.fst) ?_) hnodup).mpr ?_
  · exact List.pairwise_map.mpr (Store.factsIn_increasing _ _)
  · rintro ⟨c, values⟩
    rw [Store.mem_map_reading_factsIn_iff, List.mem_map]
    constructor
    · intro hvalues
      by_cases hc : ∃ w ∈ ws, w.key.cell = c
      · obtain ⟨w, hw, rfl⟩ := hc
        rw [← hkey w hw, hwritten w hw, Option.some_inj] at hvalues
        exact ⟨w, hw, by rw [hvalues]⟩
      · rw [values?_applyAll_of_forall_ne fun w hw heq ↦ hc ⟨w, hw, congrArg FactKey.cell heq⟩,
          Store.values?_next_batch hs] at hvalues
        cases hvalues
    · rintro ⟨w, hw, heq⟩
      obtain ⟨rfl, rfl⟩ := Prod.mk.inj heq
      rw [← hkey w hw, hwritten w hw]

end PlanLedger
