import PlanLedger.Planning.Work
import PlanLedger.Proofs.Store.Edits

/-!
# Runs of work

Work on the books is put together from a few pieces: reading the store, changing it, listing an
entry, failing. For each piece there is a statement on what it means that a run of it succeeds, and
work is taken apart with the statement on sequences.

Work under a run edits the store and lists entries under that run, and does nothing else, be it that
it fails or succeeds. This is a property of the pieces that sequences inherit.
-/

namespace PlanLedger

variable {α β : Type}

namespace Working

/-! ## Successful runs -/

theorem run_bind_eq_ok {m : Working α} {f : α → Working β} {b b'' : Books} {c : β} :
    (m >>= f).run b = .ok c b'' ↔ ∃ a b', m.run b = .ok a b' ∧ (f a).run b' = .ok c b'' := by
  rw [EStateM.run_bind]
  cases hm : m.run b with
  | ok a b' =>
    constructor
    · intro h
      exact ⟨a, b', rfl, h⟩
    · rintro ⟨a', b₁, heq, h⟩
      cases heq
      exact h
  | error e b' =>
    constructor
    · intro h
      cases h
    · rintro ⟨a', b₁, heq, h⟩
      cases heq

theorem run_pure_eq_ok {a a' : α} {b b' : Books} :
    (pure a : Working α).run b = .ok a' b' ↔ a = a' ∧ b = b' := by
  constructor
  · intro h
    cases h
    exact ⟨rfl, rfl⟩
  · rintro ⟨rfl, rfl⟩
    rfl

theorem not_run_throw_eq_ok {e : PlanningError} {a : α} {b b' : Books} :
    ¬ (throw e : Working α).run b = .ok a b' := by
  intro h
  cases h

theorem run_lift_eq_ok {x : Except PlanningError α} {a : α} {b b' : Books} :
    (liftM x : Working α).run b = .ok a b' ↔ x = .ok a ∧ b = b' := by
  cases x with
  | error e =>
    constructor
    · intro h
      cases h
    · rintro ⟨h, -⟩
      cases h
  | ok a' =>
    constructor
    · intro h
      cases h
      exact ⟨rfl, rfl⟩
    · rintro ⟨h, rfl⟩
      cases h
      rfl

theorem run_store_eq_ok {s : Store} {b b' : Books} :
    store.run b = .ok s b' ↔ b.store = s ∧ b = b' := by
  constructor
  · intro h
    cases h
    exact ⟨rfl, rfl⟩
  · rintro ⟨rfl, rfl⟩
    rfl

theorem run_onStore_eq_ok {change : Store → Except StoreError (α × Store)} {a : α}
    {b b' : Books} : (onStore change).run b = .ok a b' ↔
      ∃ s, change b.store = .ok (a, s) ∧ b' = { b with store := s } := by
  rw [EStateM.run, onStore]
  cases change b.store with
  | error e => simp
  | ok r =>
    obtain ⟨a', s⟩ := r
    simp only [EStateM.Result.ok.injEq, Except.ok.injEq, Prod.mk.injEq]
    constructor
    · rintro ⟨rfl, rfl⟩
      exact ⟨s, ⟨rfl, rfl⟩, rfl⟩
    · rintro ⟨s', ⟨rfl, rfl⟩, rfl⟩
      exact ⟨rfl, rfl⟩

theorem return_unit_eq_ok {x : Except StoreError Store} {u : Unit} {s : Store} :
    (do return ((), ← x) : Except StoreError (Unit × Store)) = .ok (u, s) ↔ x = .ok s := by
  rw [bind_eq_ok]
  constructor
  · rintro ⟨s', hx, h⟩
    cases h
    exact hx
  · intro hx
    exact ⟨s, hx, rfl⟩

theorem run_onStore_unit_eq_ok {change : Store → Except StoreError Store} {u : Unit}
    {b b' : Books} : (onStore fun s ↦ return ((), ← change s)).run b = .ok u b' ↔
      ∃ s, change b.store = .ok s ∧ b' = { b with store := s } := by
  simp only [run_onStore_eq_ok, return_unit_eq_ok]

theorem run_record_eq_ok {run : RunId} {entry : Entry} {u : Unit} {b b' : Books} :
    (record run entry).run b = .ok u b' ↔
      ∃ l, b.ledger.record run entry = .ok l ∧ b' = { b with ledger := l } := by
  rw [EStateM.run, record]
  cases b.ledger.record run entry with
  | error e => simp
  | ok l =>
    simp only [EStateM.Result.ok.injEq, Except.ok.injEq, true_and]
    constructor
    · rintro rfl
      exact ⟨l, rfl, rfl⟩
    · rintro ⟨l', rfl, rfl⟩
      rfl

/-! ### Failing runs -/

theorem run_bind_eq_error {m : Working α} {f : α → Working β} {b b'' : Books} {e : PlanningError} :
    (m >>= f).run b = .error e b'' ↔
      m.run b = .error e b'' ∨ ∃ a b', m.run b = .ok a b' ∧ (f a).run b' = .error e b'' := by
  rw [EStateM.run_bind]
  cases m.run b <;> simp

theorem run_lift_eq_error {x : Except PlanningError α} {e : PlanningError} {b b' : Books} :
    (liftM x : Working α).run b = .error e b' ↔ x = .error e ∧ b = b' := by
  cases x with
  | ok a =>
    refine iff_of_false (fun h ↦ ?_) fun h ↦ Avoids.ok a h.1
    cases h
  | error e' =>
    constructor
    · intro h
      cases h
      exact ⟨rfl, rfl⟩
    · rintro ⟨h, rfl⟩
      cases h
      rfl

theorem run_lift_bind_eq_error {x : Except PlanningError α} {f : α → Working β} {b b' : Books}
    {e : PlanningError} : (liftM x >>= f).run b = .error e b' ↔
      x = .error e ∧ b = b' ∨ ∃ a, x = .ok a ∧ (f a).run b = .error e b' := by
  rw [run_bind_eq_error, run_lift_eq_error]
  refine or_congr_right ?_
  constructor
  · rintro ⟨a, b₁, hfirst, hrest⟩
    obtain ⟨hx, rfl⟩ := run_lift_eq_ok.mp hfirst
    exact ⟨a, hx, hrest⟩
  · rintro ⟨a, hx, hrest⟩
    exact ⟨a, b, run_lift_eq_ok.mpr ⟨hx, rfl⟩, hrest⟩

theorem run_store_bind_eq_error {f : Store → Working β} {b b' : Books} {e : PlanningError} :
    (store >>= f).run b = .error e b' ↔ (f b.store).run b = .error e b' := by
  rw [run_bind_eq_error]
  constructor
  · rintro (h | ⟨s, b₁, hs, h⟩)
    · cases h
    · obtain ⟨rfl, rfl⟩ := run_store_eq_ok.mp hs
      exact h
  · intro h
    exact .inr ⟨b.store, b, rfl, h⟩

theorem mapM_lift {ι : Type} (f : ι → Except PlanningError α) (l : List ι) :
    (l.mapM fun i ↦ (liftM (f i) : Working α)) = liftM (l.mapM f) := by
  induction l with
  | nil => rfl
  | cons i rest ih =>
    rw [List.mapM_cons, List.mapM_cons, ih]
    cases f i with
    | error e => rfl
    | ok a => cases rest.mapM f <;> rfl

theorem run_tallyOver_eq_error {ι : Type} {step : ι → Working Tally} {l : List ι} {b b'' : Books}
    {e : PlanningError} : (tallyOver step l).run b = .error e b'' ↔
      ∃ before i after t b', l = before ++ i :: after ∧
        (tallyOver step before).run b = .ok t b' ∧ (step i).run b' = .error e b'' := by
  constructor
  · intro h
    induction l generalizing b with
    | nil => cases h
    | cons i rest ih =>
      rw [tallyOver] at h
      rcases run_bind_eq_error.mp h with hfirst | ⟨t, b₁, hfirst, h⟩
      · exact ⟨[], i, rest, {}, b, rfl, rfl, hfirst⟩
      · rcases run_bind_eq_error.mp h with hrest | ⟨t', b₂, -, h⟩
        · obtain ⟨before, i', after, t', b', rfl, hbefore, hi'⟩ := ih hrest
          refine ⟨i :: before, i', after, t.add t', b', rfl, ?_, hi'⟩
          rw [tallyOver]
          exact run_bind_eq_ok.mpr ⟨t, b₁, hfirst, run_bind_eq_ok.mpr ⟨t', b', hbefore, rfl⟩⟩
        · cases h
  · rintro ⟨before, i, after, t, b', rfl, hbefore, hi⟩
    induction before generalizing b t with
    | nil =>
      obtain ⟨-, rfl⟩ := run_pure_eq_ok.mp hbefore
      exact run_bind_eq_error.mpr (.inl hi)
    | cons i' rest ih =>
      rw [tallyOver] at hbefore
      obtain ⟨t₁, b₁, hfirst, h⟩ := run_bind_eq_ok.mp hbefore
      obtain ⟨t₂, b₂, hrest, h⟩ := run_bind_eq_ok.mp h
      obtain ⟨-, rfl⟩ := run_pure_eq_ok.mp h
      exact run_bind_eq_error.mpr (.inr ⟨t₁, b₁, hfirst,
        run_bind_eq_error.mpr (.inl (ih t₂ hrest))⟩)

def Avoids (e : PlanningError) (m : Working α) : Prop := ∀ b b', m.run b ≠ .error e b'

namespace Avoids

variable {e : PlanningError}

theorem pure (a : α) : Avoids e (Pure.pure a : Working α) := by
  intro b b' h
  cases h

theorem bind {m : Working α} {f : α → Working β} (hm : Avoids e m) (hf : ∀ a, Avoids e (f a)) :
    Avoids e (m >>= f) := by
  intro b b' h
  rcases run_bind_eq_error.mp h with h | ⟨a, b₁, -, h⟩
  · exact hm b b' h
  · exact hf a b₁ b' h

theorem tallyOver {ι : Type} {step : ι → Working Tally} (h : ∀ i, Avoids e (step i)) (l : List ι) :
    Avoids e (tallyOver step l) := by
  intro b b' hrun
  obtain ⟨_, i, _, _, b₁, _, _, hi⟩ := run_tallyOver_eq_error.mp hrun
  exact h i b₁ b' hi

theorem onStore (change : Store → Except StoreError (α × Store)) (he : ∀ err, e ≠ .store err) :
    Avoids e (Working.onStore change) := by
  intro b b' h
  rw [EStateM.run, Working.onStore] at h
  split at h
  · cases h
  · cases h
    exact he _ rfl

theorem record (run : RunId) (entry : Entry) (he : ∀ err, e ≠ .ledger err) :
    Avoids e (Working.record run entry) := by
  intro b b' h
  rw [EStateM.run, Working.record] at h
  split at h
  · cases h
  · cases h
    exact he _ rfl

end Avoids

/-! ### First steps -/

section

variable {f : α → Working β} {b b' : Books} {c : β}

theorem run_lift_bind_eq_ok {x : Except PlanningError α} :
    (liftM x >>= f).run b = .ok c b' ↔ ∃ a, x = .ok a ∧ (f a).run b = .ok c b' := by
  rw [run_bind_eq_ok]
  constructor
  · rintro ⟨a, b₁, hfirst, hrest⟩
    obtain ⟨hx, rfl⟩ := run_lift_eq_ok.mp hfirst
    exact ⟨a, hx, hrest⟩
  · rintro ⟨a, hx, hrest⟩
    exact ⟨a, b, run_lift_eq_ok.mpr ⟨hx, rfl⟩, hrest⟩

theorem run_store_bind_eq_ok {f : Store → Working β} :
    (store >>= f).run b = .ok c b' ↔ (f b.store).run b = .ok c b' := by
  rw [run_bind_eq_ok]
  constructor
  · rintro ⟨s, b₁, hfirst, hrest⟩
    obtain ⟨rfl, rfl⟩ := run_store_eq_ok.mp hfirst
    exact hrest
  · intro hrest
    exact ⟨b.store, b, rfl, hrest⟩

theorem run_onStore_bind_eq_ok {change : Store → Except StoreError (α × Store)} :
    (onStore change >>= f).run b = .ok c b' ↔
      ∃ a s, change b.store = .ok (a, s) ∧ (f a).run { b with store := s } = .ok c b' := by
  rw [run_bind_eq_ok]
  constructor
  · rintro ⟨a, b₁, hfirst, hrest⟩
    obtain ⟨s, hs, rfl⟩ := run_onStore_eq_ok.mp hfirst
    exact ⟨a, s, hs, hrest⟩
  · rintro ⟨a, s, hs, hrest⟩
    exact ⟨a, _, run_onStore_eq_ok.mpr ⟨s, hs, rfl⟩, hrest⟩

end

/-- The books after work, whether it failed or succeeded. -/
def after (m : Working α) (b : Books) : Books :=
  match m.run b with
  | .ok _ b' => b'
  | .error _ b' => b'

theorem after_of_ok {m : Working α} {b b' : Books} {a : α} (h : m.run b = .ok a b') :
    m.after b = b' := by
  rw [after, h]

theorem after_of_error {m : Working α} {b b' : Books} {e : PlanningError}
    (h : m.run b = .error e b') : m.after b = b' := by
  rw [after, h]

end Working

/-! ## Entries in the ledger -/

namespace Ledger

theorem record_eq_ok {l l' : Ledger} {run : RunId} {entry : Entry}
    (h : l.record run entry = .ok l') :
    l'.runs = l.runs.modify run (·.add entry) ∧ l'.lastRun = l.lastRun := by
  rw [Ledger.record] at h
  split at h
  · split at h
    · cases h
      exact ⟨rfl, rfl⟩
    · cases h
  · cases h

theorem run?_record {l l' : Ledger} {run : RunId} {entry : Entry} (h : l.record run entry = .ok l')
    (id : RunId) :
    l'.run? id = if id = run then (l.run? run).map (·.add entry) else l.run? id := by
  rw [Ledger.run?, (record_eq_ok h).1, SortedMap.get?_modify]
  rfl

theorem length_entries_record {l l' : Ledger} {run : RunId} {entry : Entry}
    (h : l.record run entry = .ok l') : (l'.entries run).length ≤ maxEntries := by
  rw [entries, run?_record h, if_pos rfl]
  rw [record] at h
  split at h
  · rename_i r hr
    split at h
    · rename_i hroom
      rw [run?, hr, Option.map_some, Option.map_some, Option.getD_some, Run.add,
        List.length_append]
      exact hroom
    · cases h
  · cases h

end Ledger

/-! ## Work under a run -/

/-- What work under a run does to the books. -/
structure Books.MovedTo (run : RunId) (b b' : Books) : Prop where
  store : Store.EditedTo b.store b'.store
  lastRun : b'.ledger.lastRun = b.ledger.lastRun
  others : ∀ id, id ≠ run → b'.ledger.run? id = b.ledger.run? id
  listed : (b'.ledger.run? run).isSome = (b.ledger.run? run).isSome
  /-- Entries are listed as long as there is room. -/
  room : (b'.ledger.entries run).length ≤ max (b.ledger.entries run).length maxEntries

namespace Books.MovedTo

variable {run : RunId}

theorem refl (b : Books) : b.MovedTo run b :=
  ⟨.refl, rfl, fun _ _ ↦ rfl, rfl, Nat.le_max_left _ _⟩

theorem trans {b b' b'' : Books} (h : b.MovedTo run b') (h' : b'.MovedTo run b'') :
    b.MovedTo run b'' where
  store := h.store.trans h'.store
  lastRun := h'.lastRun.trans h.lastRun
  others id hid := (h'.others id hid).trans (h.others id hid)
  listed := h'.listed.trans h.listed
  room := Nat.le_trans h'.room (Nat.max_le.mpr ⟨h.room, Nat.le_max_right _ _⟩)

end Books.MovedTo

/-- Work that edits the store and lists entries under a run, and does nothing else. -/
def Working.Under (run : RunId) (m : Working α) : Prop := ∀ b : Books, b.MovedTo run (m.after b)

namespace Working.Under

variable {run : RunId}

theorem pure (a : α) : Under run (Pure.pure a) := fun b ↦ .refl b

theorem throw (e : PlanningError) : Under run (MonadExcept.throw e : Working α) := fun b ↦ .refl b

theorem lift (x : Except PlanningError α) : Under run (liftM x) := by
  intro b
  cases x <;> exact .refl b

theorem store : Under run Working.store := fun b ↦ .refl b

theorem bind {m : Working α} {f : α → Working β} (hm : Under run m) (hf : ∀ a, Under run (f a)) :
    Under run (m >>= f) := by
  intro b
  have hfirst := hm b
  cases h : m.run b with
  | ok a b' =>
    have hafter : (m >>= f).after b = (f a).after b' := by
      rw [after, EStateM.run_bind, h, after]
    rw [after_of_ok h] at hfirst
    rw [hafter]
    exact hfirst.trans (hf a b')
  | error e b' =>
    rw [after_of_error h] at hfirst
    have hafter : (m >>= f).after b = b' := by
      rw [after, EStateM.run_bind, h]
    rwa [hafter]

theorem onStore {change : Store → Except StoreError (α × Store)}
    (h : ∀ s a s', change s = .ok (a, s') → Store.Edit s s') :
    Under run (Working.onStore change) := by
  intro b
  rw [after, EStateM.run, Working.onStore]
  cases hchange : change b.store with
  | error e => exact .refl b
  | ok r =>
    obtain ⟨a, s⟩ := r
    exact ⟨.single (h _ a s hchange), rfl, fun _ _ ↦ rfl, rfl, Nat.le_max_left _ _⟩

theorem record (entry : Entry) : Under run (Working.record run entry) := by
  intro b
  rw [after, EStateM.run, Working.record]
  cases hrecord : b.ledger.record run entry with
  | error e => exact .refl b
  | ok l =>
    refine ⟨.refl, (Ledger.record_eq_ok hrecord).2, fun id hid ↦ ?_, ?_, ?_⟩
    · rw [Ledger.run?_record hrecord, if_neg hid]
    · rw [Ledger.run?_record hrecord, if_pos rfl, Option.isSome_map]
    · exact Nat.le_trans (Ledger.length_entries_record hrecord) (Nat.le_max_right _ _)

theorem forM {ι : Type} {step : ι → Working Unit} (h : ∀ i, Under run (step i)) (l : List ι) :
    Under run (l.forM step) := by
  induction l with
  | nil => exact pure _
  | cons i rest ih => exact (h i).bind fun _ ↦ ih

theorem mapM {ι : Type} {step : ι → Working α} (h : ∀ i, Under run (step i)) (l : List ι) :
    Under run (l.mapM step) := by
  induction l with
  | nil =>
    rw [List.mapM_nil]
    exact pure _
  | cons i rest ih =>
    rw [List.mapM_cons]
    exact (h i).bind fun _ ↦ ih.bind fun _ ↦ pure _

theorem tallyOver {ι : Type} {step : ι → Working Tally} (h : ∀ i, Under run (step i))
    (l : List ι) : Under run (tallyOver step l) := by
  induction l with
  | nil => exact pure _
  | cons i rest ih => exact (h i).bind fun _ ↦ ih.bind fun _ ↦ pure _

end Working.Under

end PlanLedger
