import Mathlib.Data.List.Nodup
import Mathlib.Logic.Function.Basic
import PlanLedger.Proofs.Planning.Entries
import PlanLedger.Proofs.Planning.Writes
import PlanLedger.Proofs.Store.Agreement

/-!
# Settling the entries of a run

The entries of a formula run are listed in their order and, unless the run is a preview, written in
their order. A write gives a row its new value and keeps the rest of it, so what the store holds
under a key afterwards depends on what it held there and on the new values for that key. Writes
under different keys can therefore change places: the values under all keys come out the same, and
only the numbers of rows that are added may differ.
-/

namespace PlanLedger

/-! ## Writing and listing entries -/

/-- The write of an entry of a formula run. A row that is there keeps everything but its value. -/
def Entry.toWrite (entry : Entry) : Write where
  entry
  defaults := { value := entry.newValue }
  change values := { values with value := entry.newValue }
  value_change _ := rfl

@[simp] theorem Entry.key_toWrite (entry : Entry) : entry.toWrite.key = entry.key := rfl

namespace Engine

theorem settleEntry_eq_ok {run : RunId} {preview : Bool} {entry : Entry} {b b' : Books} {r : Run}
    (hlisted : b.ledger.run? run = some r)
    (h : (settleEntry run preview entry).run b = .ok () b') :
    b'.store = (if preview = true then b.store else entry.toWrite.applyTo b.store) ∧
      b'.ledger.run? run = some (r.add entry) := by
  obtain ⟨u, b₁, hrecord, hwrite⟩ := Working.run_bind_eq_ok.mp h
  obtain ⟨l, hl, rfl⟩ := Working.run_record_eq_ok.mp hrecord
  have hadded : l.run? run = some (r.add entry) := by
    rw [Ledger.run?_record hl, if_pos rfl, hlisted, Option.map_some]
  by_cases hpreview : preview = true
  · rw [if_pos hpreview] at hwrite ⊢
    obtain ⟨-, rfl⟩ := Working.run_pure_eq_ok.mp hwrite
    exact ⟨rfl, hadded⟩
  · rw [if_neg hpreview] at hwrite ⊢
    obtain ⟨s, hs, rfl⟩ := Working.run_onStore_unit_eq_ok.mp hwrite
    obtain ⟨-, rfl⟩ := Store.update_eq_ok hs
    exact ⟨rfl, hadded⟩

/-- All entries that are settled are listed and, unless they are only shown, written. -/
theorem settled_eq {run : RunId} {preview : Bool} {entries : List Entry} {b b' : Books} {r : Run}
    (hlisted : b.ledger.run? run = some r)
    (h : (entries.forM (settleEntry run preview)).run b = .ok () b') :
    b'.store = (if preview = true then b.store else
        Write.applyAll b.store (entries.map Entry.toWrite)) ∧
      b'.ledger.run? run = some (Write.listAll r (entries.map Entry.toWrite)) := by
  induction entries generalizing b r with
  | nil =>
    obtain ⟨-, rfl⟩ := Working.run_pure_eq_ok.mp h
    exact ⟨by simp [Write.applyAll], hlisted⟩
  | cons entry rest ih =>
    rw [List.forM] at h
    obtain ⟨u, b₁, hfirst, hrest⟩ := Working.run_bind_eq_ok.mp h
    obtain ⟨hstore, hadded⟩ := settleEntry_eq_ok hlisted hfirst
    obtain ⟨hstore', hall⟩ := ih hadded hrest
    refine ⟨?_, hall⟩
    rw [hstore', hstore]
    cases preview <;> rfl

/-- If there is no room for all entries, settling them stops at the first one that does not find a
place. -/
theorem settle_full {run : RunId} {preview : Bool} {entries : List Entry} {b : Books} {r : Run}
    (hlisted : b.ledger.run? run = some r)
    (haccepted : ∀ entry ∈ entries, b.store.checkKey entry.key = .ok ())
    (hplace : r.entries.length ≤ maxEntries)
    (hfull : maxEntries < r.entries.length + entries.length) : ∃ b',
      (entries.forM (settleEntry run preview)).run b = .error (.ledger (.fullRun run)) b' := by
  induction entries generalizing b r with
  | nil => exact absurd hplace (Nat.not_le_of_lt hfull)
  | cons entry rest ih =>
    rw [List.length_cons] at hfull
    rw [List.forM, EStateM.run_bind]
    by_cases hroom : r.entries.length < maxEntries
    · -- There is a place for this entry, so the place is missing for one of the others.
      have hone : Admits run [entry] b := by
        refine ⟨⟨r, hlisted, hroom⟩, fun other hother ↦ haccepted other ?_⟩
        exact List.mem_singleton.mp hother ▸ List.mem_cons_self
      obtain ⟨b', hfirst, -⟩ := hone.run_settleEntry preview
      obtain ⟨hstore, hadded⟩ := settleEntry_eq_ok hlisted hfirst
      rw [hfirst]
      refine ih hadded (fun other hother ↦ ?_) ?_ ?_
      · have hkey := haccepted other (List.mem_cons_of_mem _ hother)
        rw [hstore]
        -- A write changes no batch, so the key is still accepted.
        cases preview <;> exact hkey
      · rw [Run.add, List.length_append, List.length_singleton]
        exact hroom
      · rw [Run.add, List.length_append, List.length_singleton]
        omega
    · refine ⟨b, ?_⟩
      have hrefused : (settleEntry run preview entry).run b =
          .error (.ledger (.fullRun run)) b := by
        rw [Ledger.run?] at hlisted
        rw [settleEntry, EStateM.run_bind]
        simp only [EStateM.run, Working.record, Ledger.record, hlisted, if_neg hroom]
      rw [hrefused]

end Engine

/-! ## Values under keys -/

/-- What a store holds under keys after an entry is written. -/
def Entry.overwrite (held : FactKey → Option FactValues) (entry : Entry) :
    FactKey → Option FactValues :=
  Function.update held entry.key
    (some { (held entry.key).getD {} with value := entry.newValue })

theorem Entry.values?_applyTo (s : Store) (entry : Entry) :
    (entry.toWrite.applyTo s).values? = entry.overwrite s.values? := by
  funext key
  have hvalues : entry.toWrite.change ((s.values? entry.key).getD entry.toWrite.defaults) =
      { (s.values? entry.key).getD {} with value := entry.newValue } := by
    cases s.values? entry.key <;> rfl
  rw [Write.applyTo, Store.values?_written, key_toWrite, hvalues, overwrite,
    Function.update_apply]

/-- What a store holds after entries are written depends on what it held before. -/
theorem Entry.values?_applyAll (s : Store) (entries : List Entry) :
    (Write.applyAll s (entries.map toWrite)).values? = entries.foldl overwrite s.values? := by
  induction entries generalizing s with
  | nil => rfl
  | cons entry rest ih =>
    rw [List.foldl_cons, ← values?_applyTo, ← ih]
    rfl

theorem Entry.foldl_overwrite_rest (entries : List Entry) (held : FactKey → Option FactValues)
    (key : FactKey) (value : Decimal) :
    { (entries.foldl overwrite held key).getD {} with value } =
      { (held key).getD {} with value } := by
  induction entries generalizing held with
  | nil => rfl
  | cons entry rest ih =>
    rw [List.foldl_cons, ih, overwrite, Function.update_apply]
    split_ifs with hkey
    · rw [hkey]
      rfl
    · rfl

theorem Entry.foldl_overwrite_apply {entries : List Entry} {key : FactKey} {last : Entry}
    (h : (entries.filter fun entry ↦ entry.key = key).getLast? = some last)
    (held : FactKey → Option FactValues) :
    entries.foldl overwrite held key = some { (held key).getD {} with value := last.newValue } := by
  induction entries using List.reverseRecOn with
  | nil => cases h
  | append_singleton entries entry ih =>
    rw [List.foldl_append, List.foldl_cons, List.foldl_nil, overwrite]
    rw [List.filter_append] at h
    by_cases hkey : entry.key = key
    · rw [List.filter_cons_of_pos (by simpa using hkey), List.filter_nil, List.getLast?_concat,
        Option.some_inj] at h
      subst h hkey
      rw [Function.update_self, foldl_overwrite_rest]
    · rw [List.filter_cons_of_neg (by simpa using hkey), List.filter_nil, List.append_nil] at h
      rw [Function.update_of_ne (Ne.symm hkey), ih h]

/-! ## Changing places -/

theorem Entry.overwrite_comm {a b : Entry} (h : a.key ≠ b.key)
    (held : FactKey → Option FactValues) :
    b.overwrite (a.overwrite held) = a.overwrite (b.overwrite held) := by
  rw [overwrite, overwrite, overwrite, overwrite, Function.update_of_ne h,
    Function.update_of_ne h.symm, Function.update_comm h]

theorem Entry.foldl_overwrite_perm {entries entries' : List Entry} (hperm : entries.Perm entries')
    (hkeys : (entries.map (·.key)).Nodup) (held : FactKey → Option FactValues) :
    entries.foldl overwrite held = entries'.foldl overwrite held := by
  refine hperm.foldl_eq' (fun a ha b hb held ↦ ?_) held
  by_cases heq : a.key = b.key
  · rw [List.inj_on_of_nodup_map hkeys ha hb heq]
  · exact overwrite_comm heq held

theorem Entry.foldl_overwrite_one {a : Entry} {entries : List Entry}
    (h : ∀ b ∈ entries, a.key ≠ b.key) (held : FactKey → Option FactValues) :
    entries.foldl overwrite (a.overwrite held) = a.overwrite (entries.foldl overwrite held) := by
  induction entries generalizing held with
  | nil => rfl
  | cons b rest ih =>
    obtain ⟨hb, hrest⟩ := List.forall_mem_cons.mp h
    rw [List.foldl_cons, overwrite_comm hb, ih hrest, List.foldl_cons]

/-- Two lists of entries that have no key in common can be written in either order. -/
theorem Entry.foldl_overwrite_comm {entries entries' : List Entry}
    (h : ∀ a ∈ entries, ∀ b ∈ entries', a.key ≠ b.key) (held : FactKey → Option FactValues) :
    entries'.foldl overwrite (entries.foldl overwrite held) =
      entries.foldl overwrite (entries'.foldl overwrite held) := by
  induction entries generalizing held with
  | nil => rfl
  | cons a rest ih =>
    obtain ⟨ha, hrest⟩ := List.forall_mem_cons.mp h
    rw [List.foldl_cons, List.foldl_cons, ih hrest, foldl_overwrite_one ha]

end PlanLedger
