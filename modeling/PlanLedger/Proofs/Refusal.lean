import Mathlib.Data.List.Forall2
import Mathlib.Data.List.Perm.Basic
import PlanLedger.Planning.Error

/-!
# Operations that may be refused

Of several operations in a row that are not refused, none is. With these equivalences a result is
taken apart into its steps by name, and no proof has to split on what each step returned.
-/

namespace PlanLedger

section

variable {ε α β : Type} {x : Except ε α} {b : β}

theorem bind_eq_ok {f : α → Except ε β} :
    x >>= f = .ok b ↔ ∃ a, x = .ok a ∧ f a = .ok b := by
  cases x with
  | error e => simp [bind, Except.bind]
  | ok a => simp [bind, Except.bind]

theorem ok_bind {a : α} {f : α → Except ε β} : (Except.ok a >>= f) = f a := rfl

theorem map_eq_ok {f : α → β} : x.map f = .ok b ↔ ∃ a, x = .ok a ∧ f a = b := by
  cases x with
  | error e => simp [Except.map]
  | ok a => simp [Except.map]

/-- Two operations in a row are refused by the first one or, if that was not refused, by the
second one. -/
theorem bind_eq_error {f : α → Except ε β} {e : ε} :
    x >>= f = .error e ↔ x = .error e ∨ ∃ a, x = .ok a ∧ f a = .error e := by
  cases x with
  | error e' => simp [bind, Except.bind]
  | ok a => simp [bind, Except.bind]

theorem bind_return_eq_error {f : α → β} {e : ε} :
    (do return f (← x)) = Except.error e ↔ x = .error e := by
  cases x with
  | error e' => simp [bind, Except.bind]
  | ok a => simp [bind, Except.bind, pure, Except.pure]

theorem exists_eq_ok (h : x.isOk = true) : ∃ a, x = .ok a := by
  cases x with
  | error _ => cases h
  | ok a => exact ⟨a, rfl⟩

theorem exists_eq_ok_congr {y : Except ε β} (h : ∀ {e}, x = .error e ↔ y = .error e) :
    (∃ a, x = .ok a) ↔ ∃ b, y = .ok b := by
  cases x with
  | error e => simp [h.mp rfl]
  | ok a =>
    cases y with
    | error e => cases h.mpr rfl
    | ok b => simp

end

/-! ## Lists -/

section

variable {ε α β : Type} {f : α → Except ε β}

/-- An operation on every member of a list is not refused if it is refused for none. -/
theorem mapM_eq_ok {l : List α} {l' : List β} :
    l.mapM f = .ok l' ↔ List.Forall₂ (fun a b ↦ f a = .ok b) l l' := by
  induction l generalizing l' with
  | nil =>
    rw [List.mapM_nil, List.forall₂_nil_left_iff]
    exact ⟨fun h ↦ (Except.ok.inj h).symm, fun h ↦ h ▸ rfl⟩
  | cons a rest ih =>
    rw [List.mapM_cons, List.forall₂_cons_left_iff, bind_eq_ok]
    refine exists_congr fun b ↦ ?_
    constructor
    · rintro ⟨hb, h⟩
      obtain ⟨rest', hrest, h⟩ := bind_eq_ok.mp h
      exact ⟨rest', hb, ih.mp hrest, (Except.ok.inj h).symm⟩
    · rintro ⟨rest', hb, hrest, rfl⟩
      exact ⟨hb, bind_eq_ok.mpr ⟨rest', ih.mpr hrest, rfl⟩⟩

theorem exists_mem_of_mapM_eq_ok {l : List α} {l' : List β} (h : l.mapM f = .ok l') {b : β}
    (hb : b ∈ l') : ∃ a ∈ l, f a = .ok b := by
  have hall := mapM_eq_ok.mp h
  clear h
  induction hall with
  | nil => exact absurd hb List.not_mem_nil
  | cons hfirst _ ih =>
    rcases List.mem_cons.mp hb with rfl | hb
    · exact ⟨_, List.mem_cons_self, hfirst⟩
    · obtain ⟨a, ha, hab⟩ := ih hb
      exact ⟨a, List.mem_cons_of_mem _ ha, hab⟩

theorem exists_eq_ok_of_mapM_eq_ok {l : List α} {l' : List β} (h : l.mapM f = .ok l') {a : α}
    (ha : a ∈ l) : ∃ b ∈ l', f a = .ok b := by
  have hall := mapM_eq_ok.mp h
  clear h
  induction hall with
  | nil => exact absurd ha List.not_mem_nil
  | cons hfirst _ ih =>
    rcases List.mem_cons.mp ha with rfl | ha
    · exact ⟨_, List.mem_cons_self, hfirst⟩
    · obtain ⟨b, hb, hab⟩ := ih ha
      exact ⟨b, List.mem_cons_of_mem _ hb, hab⟩

/-- An operation goes through a list exactly if it has a result on every member. -/
theorem exists_mapM_eq_ok_iff {l : List α} :
    (∃ l', l.mapM f = .ok l') ↔ ∀ a ∈ l, ∃ b, f a = .ok b := by
  constructor
  · rintro ⟨l', h⟩ a ha
    obtain ⟨b, -, hb⟩ := exists_eq_ok_of_mapM_eq_ok h ha
    exact ⟨b, hb⟩
  · intro h
    induction l with
    | nil => exact ⟨[], rfl⟩
    | cons a rest ih =>
      obtain ⟨⟨b, hb⟩, hrest⟩ := List.forall_mem_cons.mp h
      obtain ⟨rest', hrest'⟩ := ih hrest
      exact ⟨b :: rest', by rw [List.mapM_cons, hb, ok_bind, hrest']; rfl⟩

theorem mapM_eq_error {l : List α} {e : ε} (h : l.mapM f = .error e) :
    ∃ a ∈ l, f a = .error e := by
  induction l with
  | nil => cases h
  | cons a rest ih =>
    rw [List.mapM_cons] at h
    rcases bind_eq_error.mp h with ha | ⟨b, -, h⟩
    · exact ⟨a, List.mem_cons_self, ha⟩
    · rcases bind_eq_error.mp h with hrest | ⟨rest', -, h⟩
      · obtain ⟨a', ha', hrefused⟩ := ih hrest
        exact ⟨a', List.mem_cons_of_mem _ ha', hrefused⟩
      · cases h

theorem mapM_cons_eq_error {a : α} {l : List α} {e : ε} : (a :: l).mapM f = .error e ↔
    f a = .error e ∨ (∃ b, f a = .ok b) ∧ l.mapM f = .error e := by
  rw [List.mapM_cons, bind_eq_error]
  simp only [bind_return_eq_error, exists_and_right]

theorem mapM_eq_error_iff {l : List α} {e : ε} : l.mapM f = .error e ↔
    ∃ before a after results, l = before ++ a :: after ∧ before.mapM f = .ok results ∧
      f a = .error e := by
  constructor
  · intro h
    induction l with
    | nil => cases h
    | cons a rest ih =>
      rw [List.mapM_cons] at h
      rcases bind_eq_error.mp h with ha | ⟨b, hb, h⟩
      · exact ⟨[], a, rest, [], rfl, rfl, ha⟩
      · rcases bind_eq_error.mp h with hrest | ⟨rest', -, h⟩
        · obtain ⟨before, a', after, results, rfl, hresults, ha'⟩ := ih hrest
          refine ⟨a :: before, a', after, b :: results, rfl, ?_, ha'⟩
          rw [List.mapM_cons, hb, ok_bind, hresults]
          rfl
        · cases h
  · rintro ⟨before, a, after, results, rfl, hresults, ha⟩
    rw [List.mapM_append, hresults, ok_bind, List.mapM_cons, ha]
    rfl

theorem mapM_append_eq_error {l l' : List α} {e : ε} : (l ++ l').mapM f = .error e ↔
    l.mapM f = .error e ∨ (∃ results, l.mapM f = .ok results) ∧ l'.mapM f = .error e := by
  rw [List.mapM_append, bind_eq_error]
  simp only [bind_return_eq_error, exists_and_right]

/-- Operations that come to the same for every member come to the same for the list. -/
theorem mapM_congr {g : α → Except ε β} {l : List α} (h : ∀ a ∈ l, f a = g a) :
    l.mapM f = l.mapM g := by
  induction l with
  | nil => rfl
  | cons a rest ih =>
    obtain ⟨hfirst, hrest⟩ := List.forall_mem_cons.mp h
    rw [List.mapM_cons, List.mapM_cons, hfirst, ih hrest]

/-- In which order an operation goes through a list has no part in whether it is refused, and its
results come in the same order as the members. -/
theorem exists_mapM_of_perm {l l' : List α} {results : List β} (hperm : l'.Perm l)
    (h : l.mapM f = .ok results) :
    ∃ results', l'.mapM f = .ok results' ∧ results'.Perm results := by
  obtain ⟨results', hresults', hsame⟩ := List.perm_comp_forall₂ hperm (mapM_eq_ok.mp h)
  exact ⟨results', mapM_eq_ok.mpr hresults', hsame⟩

theorem of_foldlM_eq_ok {P : β → Prop} {step : β → α → Except ε β} {l : List α} {b b' : β}
    (h : l.foldlM step b = .ok b') (hb : P b)
    (hstep : ∀ a ∈ l, ∀ b b', P b → step b a = .ok b' → P b') : P b' := by
  induction l generalizing b with
  | nil =>
    cases h
    exact hb
  | cons a rest ih =>
    rw [List.foldlM_cons] at h
    obtain ⟨b₁, hfirst, hrest⟩ := bind_eq_ok.mp h
    obtain ⟨hkeep, hkeeps⟩ := List.forall_mem_cons.mp hstep
    exact ih hrest (hkeep b b₁ hb hfirst) hkeeps

end

/-! ## Errors that never come -/

/-- An operation that is not refused with an error. -/
def Avoids {ε α : Type} (e : ε) (x : Except ε α) : Prop := x ≠ .error e

namespace Avoids

variable {ε α β : Type} {e : ε}

theorem ok (a : α) : Avoids e (.ok a) := by
  intro h
  cases h

theorem error {e' : ε} (h : e' ≠ e) : Avoids e (.error e' : Except ε α) :=
  fun heq ↦ h (Except.error.inj heq)

theorem bind {x : Except ε α} {f : α → Except ε β} (hx : Avoids e x)
    (hf : ∀ a, Avoids e (f a)) : Avoids e (x >>= f) := by
  intro h
  rcases bind_eq_error.mp h with h | ⟨a, -, h⟩
  · exact hx h
  · exact hf a h

/-- Where the first operation is not refused with an error, only the second one can be. -/
theorem bind_eq_error_iff {x : Except ε α} (hx : Avoids e x) {f : α → Except ε β} :
    x >>= f = .error e ↔ ∃ a, x = .ok a ∧ f a = .error e := by
  rw [bind_eq_error]
  exact or_iff_right hx

theorem mapM {f : α → Except ε β} (hf : ∀ a, Avoids e (f a)) (l : List α) :
    Avoids e (l.mapM f) := by
  intro h
  obtain ⟨a, -, h⟩ := mapM_eq_error h
  exact hf a h

theorem foldlM {f : β → α → Except ε β} (hf : ∀ b a, Avoids e (f b a)) (l : List α) (b : β) :
    Avoids e (l.foldlM f b) := by
  induction l generalizing b with
  | nil => exact .ok b
  | cons a rest ih =>
    rw [List.foldlM_cons]
    exact (hf b a).bind ih

end Avoids

/-! ## Work as part of other work

What is refused by one part of the program is refused by the part that asked for it, with the error
as one of its own. -/

section

variable {α : Type} {a : α}

theorem Formula.ofRegistry_eq_ok {result : Except DimensionError α} :
    ofRegistry result = .ok a ↔ result = .ok a := by
  cases result with
  | ok a' => simp [ofRegistry]
  | error e => simp [ofRegistry]

namespace PlanningError

theorem ofFormula_eq_ok {result : Except Formula.FormulaError α} :
    ofFormula result = .ok a ↔ result = .ok a := by
  cases result with
  | ok a' => simp [ofFormula]
  | error e => simp [ofFormula]

theorem ofRegistry_eq_ok {result : Except DimensionError α} :
    ofRegistry result = .ok a ↔ result = .ok a :=
  ofFormula_eq_ok.trans Formula.ofRegistry_eq_ok

theorem ofStore_eq_ok {result : Except StoreError α} :
    ofStore result = .ok a ↔ result = .ok a := by
  cases result with
  | ok a' => simp [ofStore]
  | error e => simp [ofStore]

end PlanningError

end

end PlanLedger
