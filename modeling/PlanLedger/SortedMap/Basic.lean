/-!
# Sorted maps

A finite map kept as the list of its entries in strictly increasing order of the keys. The order
is part of the type, so two maps with the same entries are the same map, and every traversal
visits the keys in order.
-/

namespace PlanLedger

/-- A finite map whose entries are listed by strictly increasing keys. -/
structure SortedMap (κ ν : Type) [Ord κ] where
  /-- The entries in key order. -/
  toList : List (κ × ν)
  /-- Each key is below all keys after it. -/
  increasing : toList.Pairwise fun a b ↦ compare a.1 b.1 = .lt
deriving DecidableEq

namespace SortedMap

variable {κ ν μ : Type} [Ord κ]

def empty : SortedMap κ ν := ⟨[], .nil⟩

instance : EmptyCollection (SortedMap κ ν) := ⟨empty⟩

instance : Inhabited (SortedMap κ ν) := ⟨empty⟩

/-! ## Look-up -/

/-- The value under the first entry with key `k` in a list of entries. -/
def lookup (k : κ) : List (κ × ν) → Option ν
  | [] => none
  | e :: rest => if compare k e.1 = .eq then some e.2 else lookup k rest

def get? (m : SortedMap κ ν) (k : κ) : Option ν := lookup k m.toList

def contains (m : SortedMap κ ν) (k : κ) : Bool := (m.get? k).isSome

def keys (m : SortedMap κ ν) : List κ := m.toList.map (·.1)

def values (m : SortedMap κ ν) : List ν := m.toList.map (·.2)

def size (m : SortedMap κ ν) : Nat := m.toList.length

def isEmpty (m : SortedMap κ ν) : Bool := m.toList.isEmpty

/-! ## Insertion -/

/-- Places an entry in a list of entries, over an entry with an equal key if there is one. -/
def place (k : κ) (v : ν) : List (κ × ν) → List (κ × ν)
  | [] => [(k, v)]
  | e :: rest =>
    match compare k e.1 with
    | .lt => (k, v) :: e :: rest
    | .eq => (k, v) :: rest
    | .gt => e :: place k v rest

theorem mem_place {k : κ} {v : ν} {l : List (κ × ν)} {e : κ × ν} (h : e ∈ place k v l) :
    e = (k, v) ∨ e ∈ l := by
  induction l with
  | nil => simpa [place] using h
  | cons a rest ih =>
    rw [place] at h
    split at h
    · simpa using h
    · rcases List.mem_cons.1 h with h | h
      · exact .inl h
      · exact .inr (List.mem_cons_of_mem _ h)
    · rcases List.mem_cons.1 h with h | h
      · exact .inr (h ▸ List.mem_cons_self)
      · exact (ih h).imp_right (List.mem_cons_of_mem _)

variable [Std.TransOrd κ]

theorem increasing_place (k : κ) (v : ν) {l : List (κ × ν)}
    (h : l.Pairwise fun a b ↦ compare a.1 b.1 = .lt) :
    (place k v l).Pairwise fun a b ↦ compare a.1 b.1 = .lt := by
  induction l with
  | nil => simp [place]
  | cons a rest ih =>
    obtain ⟨ha, hr⟩ := List.pairwise_cons.1 h
    rw [place]
    split
    · rename_i hk
      refine List.pairwise_cons.2 ⟨fun b hb ↦ ?_, h⟩
      rcases List.mem_cons.1 hb with rfl | hb
      · exact hk
      · exact Std.TransCmp.lt_trans hk (ha b hb)
    · rename_i hk
      exact List.pairwise_cons.2 ⟨fun b hb ↦ Std.TransCmp.lt_of_eq_of_lt hk (ha b hb), hr⟩
    · rename_i hk
      refine List.pairwise_cons.2 ⟨fun b hb ↦ ?_, ih hr⟩
      rcases mem_place hb with rfl | hb
      · exact Std.OrientedCmp.lt_of_gt hk
      · exact ha b hb

/-- Stores a value under a key, in place of the value the key had. -/
def insert (m : SortedMap κ ν) (k : κ) (v : ν) : SortedMap κ ν :=
  ⟨place k v m.toList, increasing_place k v m.increasing⟩

theorem mem_keys_insert {m : SortedMap κ ν} {k k' : κ} {v : ν} (h : k' ∈ (m.insert k v).keys) :
    k' = k ∨ k' ∈ m.keys := by
  obtain ⟨e, he, rfl⟩ := List.mem_map.mp h
  rcases mem_place he with rfl | he
  · exact .inl rfl
  · exact .inr (List.mem_map_of_mem he)

/-- Inserts pairs one after the other, so the last pair of a key stays. -/
def insertMany (m : SortedMap κ ν) (pairs : List (κ × ν)) : SortedMap κ ν :=
  pairs.foldl (fun acc e ↦ acc.insert e.1 e.2) m

/-- The map of a list of pairs, where the last pair of a key stays. -/
def ofList (pairs : List (κ × ν)) : SortedMap κ ν := empty.insertMany pairs

/-- One map laid over another: the upper value wins where both have a key. -/
def overlay (lower upper : SortedMap κ ν) : SortedMap κ ν := lower.insertMany upper.toList

/-- The members of a list in increasing order and without repetition. -/
def distinct (l : List κ) : List κ := (ofList (l.map fun k ↦ (k, ()))).keys

omit [Std.TransOrd κ]

/-! ## Selection and change of values -/

def filter (p : κ → ν → Bool) (m : SortedMap κ ν) : SortedMap κ ν :=
  ⟨m.toList.filter fun e ↦ p e.1 e.2, m.increasing.filter _⟩

def erase (m : SortedMap κ ν) (k : κ) : SortedMap κ ν :=
  m.filter fun k' _ ↦ compare k k' != .eq

theorem mem_keys_erase {m : SortedMap κ ν} {k k' : κ} (h : k' ∈ (m.erase k).keys) :
    k' ∈ m.keys := by
  obtain ⟨e, he, rfl⟩ := List.mem_map.mp h
  exact List.mem_map_of_mem (List.mem_filter.mp he).1

def mapValues (f : κ → ν → μ) (m : SortedMap κ ν) : SortedMap κ μ :=
  ⟨m.toList.map fun e ↦ (e.1, f e.1 e.2), List.pairwise_map.2 m.increasing⟩

@[simp] theorem keys_mapValues (f : κ → ν → μ) (m : SortedMap κ ν) :
    (m.mapValues f).keys = m.keys := by
  simp [keys, mapValues]

/-- Changes the value of a key, if the key has one. -/
def modify (m : SortedMap κ ν) (k : κ) (f : ν → ν) : SortedMap κ ν :=
  m.mapValues fun k' v ↦ if compare k k' = .eq then f v else v

@[simp] theorem keys_modify (m : SortedMap κ ν) (k : κ) (f : ν → ν) :
    (m.modify k f).keys = m.keys :=
  keys_mapValues _ m

end SortedMap

end PlanLedger
