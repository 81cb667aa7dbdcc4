import PlanLedger.Proofs.Planning.Entries

/-!
# Listed writes

Work of planning writes facts and lists each write under its run. A listed write is truthful against
a store if it goes to the one place of its cell, if no fact of the cell is newer than that place,
and if its old value is the current value of the cell. After any number of truthful writes the cells
that were written hold what was listed last, and all other cells hold what they did.

Work that succeeds is accounted for by its writes: they make up all of its changes of the store, the
run lists them and nothing else, and the tally counts them. This is again a property of the pieces
that sequences inherit, be it that the writes are known or only of what kind they are. Work whose
writes are known also succeeds wherever there is room for them.
-/

namespace PlanLedger

open Engine (Admits)

/-- A write with its entry: the row of the key, which is added with the given values if there is
none, is changed so that it has the new value. -/
structure Write where
  entry : Entry
  defaults : FactValues
  change : FactValues → FactValues
  value_change : ∀ values, (change values).value = entry.newValue

namespace Write

def key (w : Write) : FactKey := w.entry.key

def applyTo (s : Store) (w : Write) : Store := s.written w.key w.defaults w.change

/-- The store after writes, one after the other. -/
def applyAll (s : Store) (ws : List Write) : Store := ws.foldl applyTo s

/-- The run after its writes are listed, one after the other. -/
def listAll (r : Run) (ws : List Write) : Run := ws.foldl (fun r w ↦ r.add w.entry) r

/-- The writes of a cell. -/
def onCell (c : Cell) (ws : List Write) : List Write := ws.filter fun w ↦ w.key.cell = c

theorem applyAll_append (s : Store) (ws ws' : List Write) :
    applyAll s (ws ++ ws') = applyAll (applyAll s ws) ws' := List.foldl_append

theorem listAll_append (r : Run) (ws ws' : List Write) :
    listAll r (ws ++ ws') = listAll (listAll r ws) ws' := List.foldl_append

/-! ## Truthful writes -/

/-- A write that says truly what is there before it. -/
structure Truthful (s : Store) (place : Cell → BatchId) (w : Write) : Prop where
  /-- All writes of a cell go to the same place. -/
  placed : w.key.batch = place w.key.cell
  /-- No fact of the cell is newer. -/
  onTop : s.NoneNewer w.key
  old_eq : w.entry.oldValue = s.currentValue w.key.cell

variable {s : Store} {place : Cell → BatchId} {ws : List Write}

theorem Truthful.noneNewer_applyAll {w : Write} (hw : w.Truthful s place)
    (h : ∀ w' ∈ ws, w'.Truthful s place) : (applyAll s ws).NoneNewer w.key := by
  induction ws using List.reverseRecOn with
  | nil => exact hw.onTop
  | append_singleton ws w' ih =>
    have hrest := ih fun v hv ↦ h v (List.mem_append_left _ hv)
    have hlast := h w' (List.mem_append_right _ List.mem_cons_self)
    rw [applyAll_append]
    -- Another write of the same cell goes to the same place, so it is not newer.
    refine hrest.written _ _ fun hcell ↦ ?_
    exact Nat.le_of_eq (by rw [hlast.placed, hw.placed, hcell])

theorem currentFact?_applyAll_of_forall_ne {c : Cell} (h : ∀ w ∈ ws, w.key.cell ≠ c) :
    (applyAll s ws).currentFact? c = s.currentFact? c := by
  induction ws using List.reverseRecOn with
  | nil => rfl
  | append_singleton ws w ih =>
    have hlast := h w (List.mem_append_right _ List.mem_cons_self)
    rw [applyAll_append]
    exact (Store.currentFact?_written_of_ne _ _ hlast.symm).trans
      (ih fun v hv ↦ h v (List.mem_append_left _ hv))

theorem currentFact?_applyAll (h : ∀ w ∈ ws, w.Truthful s place) {c : Cell} {w : Write}
    (hlast : (onCell c ws).getLast? = some w) : ∃ fact,
      (applyAll s ws).find? w.key = some fact ∧ (applyAll s ws).currentFact? c = some fact ∧
        fact.value = w.entry.newValue := by
  induction ws using List.reverseRecOn with
  | nil => cases hlast
  | append_singleton ws v ih =>
    have hrest : ∀ w ∈ ws, w.Truthful s place := fun w hw ↦ h w (List.mem_append_left _ hw)
    rw [applyAll_append]
    rw [onCell, List.filter_append] at hlast
    by_cases hcell : v.key.cell = c
    · -- The write that was added is the last one of the cell.
      have hv := h v (List.mem_append_right _ List.mem_cons_self)
      rw [List.filter_cons_of_pos (by simpa using hcell), List.filter_nil,
        List.getLast?_concat, Option.some_inj] at hlast
      subst hlast hcell
      have hfind := (applyAll s ws).find?_written_self v.key v.defaults v.change
      refine ⟨_, hfind, ?_, v.value_change _⟩
      exact (Store.currentFact?_written_self _ _ (hv.noneNewer_applyAll hrest)).trans hfind
    · rw [List.filter_cons_of_neg (by simpa using hcell), List.filter_nil, List.append_nil] at hlast
      obtain ⟨fact, hfind, hcurrent, hvalue⟩ := ih hrest hlast
      have hw : w.key.cell = c := by
        simpa using (List.mem_filter.mp (List.mem_of_getLast? hlast)).2
      have hne : w.key ≠ v.key := fun heq ↦ hcell (by rw [← heq]; exact hw)
      refine ⟨fact, ?_, ?_, hvalue⟩
      · exact (Store.find?_written_of_ne _ _ _ hne).trans hfind
      · exact (Store.currentFact?_written_of_ne _ _ (Ne.symm hcell)).trans hcurrent

/-! ## Listed entries -/

theorem entries_listAll (r : Run) (ws : List Write) :
    (listAll r ws).entries.map RunEntry.toEntry =
      r.entries.map RunEntry.toEntry ++ ws.map Write.entry := by
  induction ws generalizing r with
  | nil => simp [listAll]
  | cons w ws ih =>
    have hstep : listAll r (w :: ws) = listAll (r.add w.entry) ws := rfl
    rw [hstep, ih, Run.add]
    simp

theorem seq_listAll {r : Run} (h : r.entries.map RunEntry.seq = List.range r.entries.length)
    (ws : List Write) :
    (listAll r ws).entries.map RunEntry.seq = List.range (listAll r ws).entries.length := by
  induction ws generalizing r with
  | nil => exact h
  | cons w ws ih =>
    have hstep : listAll r (w :: ws) = listAll (r.add w.entry) ws := rfl
    rw [hstep]
    refine ih ?_
    rw [Run.add, List.map_append, h, List.length_append, List.length_singleton, List.range_succ]
    rfl

end Write

/-! ## Work that is accounted for -/

/-- Books that differ by writes which a run lists. -/
structure Books.Wrote (run : RunId) (ws : List Write) (b b' : Books) : Prop where
  store : b'.store = Write.applyAll b.store ws
  listed : b'.ledger.run? run = (b.ledger.run? run).map (Write.listAll · ws)

namespace Books.Wrote

variable {run : RunId} {b b' b'' : Books}

theorem nil (b : Books) : b.Wrote run [] b := by
  refine ⟨rfl, ?_⟩
  cases b.ledger.run? run <;> rfl

theorem append {ws ws' : List Write} (h : b.Wrote run ws b') (h' : b'.Wrote run ws' b'') :
    b.Wrote run (ws ++ ws') b'' := by
  refine ⟨?_, ?_⟩
  · rw [h'.store, h.store, Write.applyAll_append]
  · rw [h'.listed, h.listed, Option.map_map]
    congr 1
    funext r
    exact (Write.listAll_append r ws ws').symm

theorem single {b b' : Books} {l : Ledger} {w : Write} (hlist : b.ledger.record run w.entry = .ok l)
    (hb' : b' = { store := w.applyTo b.store, ledger := l }) : b.Wrote run [w] b' := by
  subst hb'
  refine ⟨rfl, ?_⟩
  rw [Ledger.run?_record hlist, if_pos rfl]
  rfl

/-- A new run lists the writes of its work and nothing else. -/
theorem entries_eq {ws : List Write} {source : RunSource} {preview : Bool} (h : b.Wrote run ws b')
    (hbegun : b.ledger.run? run = some { source, preview }) :
    b'.ledger.entries run = (Write.listAll { source, preview } ws).entries := by
  have hlisted := h.listed
  rw [hbegun, Option.map_some] at hlisted
  rw [Ledger.entries, hlisted]
  rfl

end Books.Wrote

/-! ## Work with known writes -/

namespace WorkContext

/-- The write of storing values under a key. -/
def putWrite (x : WorkContext) (key : FactKey) (values : FactValues) (oldValue : Decimal) :
    Write where
  entry := { key, cellName := x.registry.cellName key.cell, oldValue, newValue := values.value }
  defaults := values
  change _ := values
  value_change _ := rfl

/-- The write of changing a fact to a value of its own. -/
def changeWrite (x : WorkContext) (fact : Fact) (f : FactValues → FactValues) (value : Decimal)
    (hvalue : ∀ values, (f values).value = value) : Write where
  entry :=
    { key := fact.key, cellName := x.registry.cellName fact.key.cell, oldValue := fact.value,
      newValue := value }
  defaults := fact.values
  change := f
  value_change := hvalue

end WorkContext

/-- If the work succeeds, its writes are these, the tally counts them, and these facts are
reported. -/
def Working.Writes (run : RunId) (ws : List Write) (errors : List RowError) (m : Working Tally) :
    Prop :=
  ∀ b t b', m.run b = .ok t b' → t = ⟨ws.length, errors⟩ ∧ b.Wrote run ws b'

namespace Working.Writes

variable {run : RunId} {ws : List Write} {errors : List RowError} {m : Working Tally}

theorem pure (run : RunId) (errors : List RowError) :
    Writes run [] errors (Pure.pure { errors }) := by
  intro b t b' hrun
  obtain ⟨rfl, rfl⟩ := run_pure_eq_ok.mp hrun
  exact ⟨rfl, .nil b⟩

theorem tallyOver {ι : Type} {step : ι → Working Tally} {ws : ι → List Write}
    {errors : ι → List RowError} {l : List ι} (h : ∀ i ∈ l, Writes run (ws i) (errors i) (step i)) :
    Writes run (l.flatMap ws) (l.flatMap errors) (tallyOver step l) := by
  induction l with
  | nil => exact pure run []
  | cons i rest ih =>
    intro b t b' hrun
    obtain ⟨first, b₁, hfirst, hrun⟩ := run_bind_eq_ok.mp hrun
    obtain ⟨others, b₂, hothers, hrun⟩ := run_bind_eq_ok.mp hrun
    obtain ⟨rfl, rfl⟩ := run_pure_eq_ok.mp hrun
    obtain ⟨rfl, hwrote⟩ := h i List.mem_cons_self b first b₁ hfirst
    obtain ⟨rfl, hwrote'⟩ := ih (fun j hj ↦ h j (List.mem_cons_of_mem _ hj)) b₁ others b₂ hothers
    refine ⟨?_, hwrote.append hwrote'⟩
    rw [Tally.add, List.flatMap_cons, List.flatMap_cons, List.length_append]

theorem tallyOver_map {ι : Type} {step : ι → Working Tally} {w : ι → Write} {l : List ι}
    (h : ∀ i ∈ l, Writes run [w i] [] (step i)) :
    Writes run (l.map w) [] (PlanLedger.tallyOver step l) := by
  have hall : Writes run (l.flatMap fun i ↦ [w i]) (l.flatMap fun _ ↦ [])
      (PlanLedger.tallyOver step l) := tallyOver h
  rwa [← List.map_eq_flatMap, List.flatMap_eq_nil_iff.mpr fun _ _ ↦ rfl] at hall

theorem add_rejected (h : Writes run ws errors m) (reported : List RowError) :
    Writes run ws (reported ++ errors) (do return Tally.add { errors := reported } (← m)) := by
  intro b t b' hrun
  obtain ⟨t', b₁, hm, hrun⟩ := run_bind_eq_ok.mp hrun
  obtain ⟨rfl, rfl⟩ := run_pure_eq_ok.mp hrun
  obtain ⟨rfl, hwrote⟩ := h b t' b₁ hm
  refine ⟨?_, hwrote⟩
  rw [Tally.add, Nat.zero_add]

variable (x : WorkContext)

theorem put (key : FactKey) (values : FactValues) (oldValue : Decimal) :
    Writes x.run [x.putWrite key values oldValue] [] (x.put key values oldValue) := by
  intro b t b' hrun
  obtain ⟨id, s, hput, hrun⟩ := run_onStore_bind_eq_ok.mp hrun
  obtain ⟨u, b₂, hrecord, hrun⟩ := run_bind_eq_ok.mp hrun
  obtain ⟨rfl, rfl⟩ := run_pure_eq_ok.mp hrun
  obtain ⟨l, hl, rfl⟩ := run_record_eq_ok.mp hrecord
  obtain ⟨-, rfl⟩ := Store.put_eq_ok hput
  exact ⟨rfl, .single hl rfl⟩

theorem change (fact : Fact) {f : FactValues → FactValues} {value : Decimal}
    (hvalue : ∀ values, (f values).value = value) :
    Writes x.run [x.changeWrite fact f value hvalue] [] (x.change fact f) := by
  intro b t b' hrun
  obtain ⟨u, b₁, hupdate, hrun⟩ := run_bind_eq_ok.mp hrun
  obtain ⟨u', b₂, hrecord, hrun⟩ := run_bind_eq_ok.mp hrun
  obtain ⟨rfl, rfl⟩ := run_pure_eq_ok.mp hrun
  obtain ⟨s, hs, rfl⟩ := run_onStore_unit_eq_ok.mp hupdate
  obtain ⟨l, hl, rfl⟩ := run_record_eq_ok.mp hrecord
  obtain ⟨-, rfl⟩ := Store.update_eq_ok hs
  rw [hvalue] at hl
  exact ⟨rfl, .single hl rfl⟩

end Working.Writes

/-! ## Work with writes of a kind -/

/-- If the work succeeds it is accounted for by writes of a kind, and the tally counts them. -/
def Working.Accounts (run : RunId) (kind : Write → Prop) (m : Working Tally) : Prop :=
  ∀ b t b', m.run b = .ok t b' →
    ∃ ws : List Write, (∀ w ∈ ws, kind w) ∧ b.Wrote run ws b' ∧ t.affected = ws.length

namespace Working.Accounts

variable {run : RunId} {kind : Write → Prop}

theorem pure {t : Tally} (h : t.affected = 0) : Accounts run kind (Pure.pure t) := by
  intro b t' b' hrun
  obtain ⟨rfl, rfl⟩ := run_pure_eq_ok.mp hrun
  exact ⟨[], fun w hw ↦ absurd hw List.not_mem_nil, .nil b, h⟩

theorem tallyOver {ι : Type} {step : ι → Working Tally} {l : List ι}
    (h : ∀ i ∈ l, Accounts run kind (step i)) : Accounts run kind (tallyOver step l) := by
  induction l with
  | nil => exact pure rfl
  | cons i rest ih =>
    intro b t b' hrun
    obtain ⟨first, b₁, hfirst, hrun⟩ := run_bind_eq_ok.mp hrun
    obtain ⟨others, b₂, hothers, hrun⟩ := run_bind_eq_ok.mp hrun
    obtain ⟨rfl, rfl⟩ := run_pure_eq_ok.mp hrun
    obtain ⟨ws, hws, hwrote, hcount⟩ := h i List.mem_cons_self b first b₁ hfirst
    obtain ⟨ws', hws', hwrote', hcount'⟩ :=
      ih (fun j hj ↦ h j (List.mem_cons_of_mem _ hj)) b₁ others b₂ hothers
    refine ⟨ws ++ ws', fun w hw ↦ ?_, hwrote.append hwrote', ?_⟩
    · rcases List.mem_append.mp hw with hw | hw
      · exact hws w hw
      · exact hws' w hw
    · rw [Tally.add, hcount, hcount', List.length_append]

theorem add_rejected {m : Working Tally} (h : Accounts run kind m) {rejected : Tally}
    (hrejected : rejected.affected = 0) :
    Accounts run kind (do return rejected.add (← m)) := by
  intro b t b' hrun
  obtain ⟨t', b₁, hm, hrun⟩ := run_bind_eq_ok.mp hrun
  obtain ⟨rfl, rfl⟩ := run_pure_eq_ok.mp hrun
  obtain ⟨ws, hws, hwrote, hcount⟩ := h b t' b₁ hm
  refine ⟨ws, hws, hwrote, ?_⟩
  rw [Tally.add, hrejected, Nat.zero_add, hcount]

theorem of_writes {ws : List Write} {errors : List RowError} {m : Working Tally}
    (h : Writes run ws errors m) (hkind : ∀ w ∈ ws, kind w) : Accounts run kind m := by
  intro b t b' hrun
  obtain ⟨rfl, hwrote⟩ := h b t b' hrun
  exact ⟨ws, hkind, hwrote, rfl⟩

variable {x : WorkContext}

theorem put {key : FactKey} {values : FactValues} {oldValue : Decimal}
    (h : ∀ w : Write, w.key = key → w.entry.oldValue = oldValue → kind w) :
    Accounts x.run kind (x.put key values oldValue) :=
  of_writes (.put x key values oldValue) fun _ hw ↦ by
    rw [List.mem_singleton.mp hw]
    exact h _ rfl rfl

theorem change {fact : Fact} {f : FactValues → FactValues} {value : Decimal}
    (hvalue : ∀ values, (f values).value = value)
    (h : ∀ w : Write, w.key = fact.key → w.entry.oldValue = fact.value → kind w) :
    Accounts x.run kind (x.change fact f) :=
  of_writes (.change x fact hvalue) fun _ hw ↦ by
    rw [List.mem_singleton.mp hw]
    exact h _ rfl rfl

end Working.Accounts

/-! ## Work that succeeds wherever there is room -/

/-- Work that does some writes and reports some facts. It succeeds wherever there is room for its
writes, and whenever it succeeds it is accounted for by them. -/
structure Working.Does (run : RunId) (ws : List Write) (errors : List RowError)
    (m : Working Tally) : Prop where
  writes : Writes run ws errors m
  succeeds : ∀ rest b, Admits run (ws.map Write.entry ++ rest) b →
    ∃ t b', m.run b = .ok t b' ∧ Admits run rest b'

namespace Working.Does

variable {run : RunId}

theorem pure (run : RunId) (errors : List RowError) : Does run [] errors (Pure.pure { errors }) :=
  ⟨.pure run errors, fun _ b h ↦ ⟨_, b, rfl, h⟩⟩

theorem tallyOver {ι : Type} {step : ι → Working Tally} {ws : ι → List Write}
    {errors : ι → List RowError} {l : List ι} (h : ∀ i ∈ l, Does run (ws i) (errors i) (step i)) :
    Does run (l.flatMap ws) (l.flatMap errors) (tallyOver step l) := by
  refine ⟨.tallyOver fun i hi ↦ (h i hi).writes, fun rest b hadmits ↦ ?_⟩
  induction l generalizing b with
  | nil => exact ⟨_, b, rfl, hadmits⟩
  | cons i others ih =>
    obtain ⟨hfirst, hothers⟩ := List.forall_mem_cons.mp h
    rw [List.flatMap_cons, List.map_append, List.append_assoc] at hadmits
    obtain ⟨t, b₁, hrun, hadmits⟩ := hfirst.succeeds _ b hadmits
    obtain ⟨t', b₂, hrun', hadmits⟩ := ih hothers b₁ hadmits
    exact ⟨t.add t', b₂,
      run_bind_eq_ok.mpr ⟨t, b₁, hrun, run_bind_eq_ok.mpr ⟨t', b₂, hrun', rfl⟩⟩, hadmits⟩

theorem tallyOver_map {ι : Type} {step : ι → Working Tally} {w : ι → Write} {l : List ι}
    (h : ∀ i ∈ l, Does run [w i] [] (step i)) :
    Does run (l.map w) [] (PlanLedger.tallyOver step l) := by
  have hall : Does run (l.flatMap fun i ↦ [w i]) (l.flatMap fun _ ↦ [])
      (PlanLedger.tallyOver step l) := tallyOver h
  rwa [← List.map_eq_flatMap, List.flatMap_eq_nil_iff.mpr fun _ _ ↦ rfl] at hall

theorem add_rejected {ws : List Write} {errors : List RowError} {m : Working Tally}
    (h : Does run ws errors m) (reported : List RowError) :
    Does run ws (reported ++ errors) (do return Tally.add { errors := reported } (← m)) := by
  refine ⟨h.writes.add_rejected reported, fun rest b hadmits ↦ ?_⟩
  obtain ⟨t, b', hrun, hrest⟩ := h.succeeds rest b hadmits
  exact ⟨_, b', run_bind_eq_ok.mpr ⟨t, b', hrun, rfl⟩, hrest⟩

variable (x : WorkContext)

private theorem run_record {b : Books} {entry : Entry} {rest : List Entry} {s : Store}
    (h : Admits x.run (entry :: rest) b) (hs : s.batches = b.store.batches)
    (hname : entry.cellName = x.registry.cellName entry.key.cell) :
    ∃ t b', (x.record entry.key entry.oldValue entry.newValue).run { b with store := s } =
      .ok t b' ∧ Admits x.run rest b' := by
  obtain ⟨l, hl, hrest⟩ := h.exists_record
  refine ⟨{ affected := 1 }, ⟨s, l⟩, run_bind_eq_ok.mpr ⟨(), ⟨s, l⟩, ?_, rfl⟩, hrest s hs⟩
  rw [← hname]
  exact run_record_eq_ok.mpr ⟨l, hl, rfl⟩

theorem put (key : FactKey) (values : FactValues) (oldValue : Decimal) :
    Does x.run [x.putWrite key values oldValue] [] (x.put key values oldValue) := by
  refine ⟨.put x key values oldValue, fun rest b hadmits ↦ ?_⟩
  have hkey : b.store.checkKey key = .ok () := hadmits.accepted _ List.mem_cons_self
  have hput := b.store.put_eq key values
  rw [hkey] at hput
  obtain ⟨t, b', hrecord, hrest⟩ :=
    run_record x (s := b.store.written key values fun _ ↦ values) hadmits rfl rfl
  exact ⟨t, b', run_onStore_bind_eq_ok.mpr ⟨_, _, hput, hrecord⟩, hrest⟩

theorem change (fact : Fact) {f : FactValues → FactValues} {value : Decimal}
    (hvalue : ∀ values, (f values).value = value) :
    Does x.run [x.changeWrite fact f value hvalue] [] (x.change fact f) := by
  refine ⟨.change x fact hvalue, fun rest b hadmits ↦ ?_⟩
  have hkey : b.store.checkKey fact.key = .ok () := hadmits.accepted _ List.mem_cons_self
  have hupdate := b.store.update_eq fact.key fact.values f
  rw [hkey] at hupdate
  obtain ⟨t, b', hrecord, hrest⟩ :=
    run_record x (s := b.store.written fact.key fact.values f) hadmits rfl rfl
  refine ⟨t, b', run_onStore_bind_eq_ok.mpr ⟨(), _, return_unit_eq_ok.mpr hupdate, ?_⟩, hrest⟩
  rw [hvalue]
  exact hrecord

end Working.Does

end PlanLedger
