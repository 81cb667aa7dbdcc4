import PlanLedger.Planning.FunctionRun
import PlanLedger.Proofs.Planning.Entries
import PlanLedger.Proofs.Planning.Groups
import PlanLedger.Proofs.Planning.Writes
import PlanLedger.Proofs.Store.Invariant

/-!
# Where formulas and planning functions write

Facts are written in two ways. Distributing, converting and resetting write current facts of their
session in place: under the keys that the facts have, with the values of the facts as old ones.
Formulas, copying and reposting write cells to one batch, the newest one of its session or one that
was just created, with the current values of the cells as old ones. This is all that other
statements need to know of what a formula or a planning function writes.
-/

namespace PlanLedger

open Working (Accounts run_bind_eq_ok run_lift_bind_eq_ok run_store_bind_eq_ok
  run_onStore_bind_eq_ok run_pure_eq_ok not_run_throw_eq_ok)

namespace Store

/-! ## Current facts -/

theorem currentFact?_of_facts {s s' : Store} (h : s.facts = s'.facts) (c : Cell) :
    s.currentFact? c = s'.currentFact? c :=
  currentFact?_congr fun b ↦ by rw [find?, find?, h]

theorem currentValue_of_facts {s s' : Store} (h : s.facts = s'.facts) (c : Cell) :
    s.currentValue c = s'.currentValue c := by
  rw [currentValue, currentValue, currentFact?_of_facts h]

variable {s : Store}

theorem IsNewest.currentFact?_eq {fact : Fact} (h : s.IsNewest fact) :
    s.currentFact? fact.key.cell = some fact := currentFact?_eq_some_iff.mpr ⟨h, rfl⟩

theorem IsNewest.currentValue_eq {fact : Fact} (h : s.IsNewest fact) :
    s.currentValue fact.key.cell = fact.value := by
  rw [currentValue, h.currentFact?_eq]
  rfl

theorem IsLatestBatch.noneNewer (hs : s.WellFormed) {session : SessionId} {id : BatchId}
    {batch : Batch} (h : s.IsLatestBatch session id batch) {c : Cell} (hc : c.session = session) :
    s.NoneNewer (c.inBatch id) := by
  intro fact hfact hcell
  obtain ⟨stored, hstored, howned⟩ := hs.exists_batch hfact
  have hsession : fact.cell.session = session := by
    rw [hcell]
    exact hc
  exact h.newest fact.key.batch stored hstored (howned.trans hsession)

/-- A current fact of a session. -/
structure IsCurrentIn (s : Store) (session : SessionId) (fact : Fact) : Prop where
  newest : s.IsNewest fact
  session_eq : fact.cell.session = session

theorem isCurrentIn_of_mem_selectCurrent {f : Filter} {session : SessionId}
    {period : Option DimId} {fact : Fact}
    (h : fact ∈ s.selectCurrent f (.ofSession session period)) : s.IsCurrentIn session fact := by
  obtain ⟨hnewest, hselects⟩ := mem_selectCurrent_iff.mp h
  rw [Filter.selects, Bool.and_eq_true, Scope.contains, Bool.and_eq_true] at hselects
  exact ⟨hnewest, by simpa [Scope.ofSession, Scope.holdsSession] using hselects.1.1⟩

/-- The facts of the newest batch of a session are current facts of the session. -/
theorem isCurrentIn_of_mem_batchFacts (hs : s.WellFormed) {session : SessionId} {id : BatchId}
    {batch : Batch} (hlatest : s.IsLatestBatch session id batch) {facts : List Fact}
    (hfacts : s.batchFacts id = .ok facts) {fact : Fact} (hfact : fact ∈ facts) :
    s.IsCurrentIn session fact := by
  rw [batchFacts] at hfacts
  split_ifs at hfacts
  cases hfacts
  obtain ⟨hmem, hbatch⟩ := List.mem_filter.mp hfact
  have hbatch : fact.key.batch = id := by simpa using hbatch
  obtain ⟨stored, hstored, howned⟩ := hs.exists_batch hmem
  -- The batch of the fact is the one that is newest in the session, so this is its session.
  have hsession : fact.cell.session = session := by
    rw [hbatch, hlatest.stored, Option.some_inj] at hstored
    rw [← hlatest.owned, hstored, howned]
  refine ⟨⟨hmem, fun other hother hcell ↦ ?_⟩, hsession⟩
  rw [hbatch]
  exact hlatest.noneNewer hs hsession other hother hcell

end Store

/-! ## Work that only reads before it writes -/

namespace Working

variable {α β : Type}

/-- Work that leaves the books as they are if it succeeds. -/
def Reads (m : Working α) : Prop := ∀ b a b', m.run b = .ok a b' → b' = b

theorem Reads.store : Reads Working.store := by
  intro b s b' h
  exact (run_store_eq_ok.mp h).2.symm

theorem Reads.lift (x : Except PlanningError α) : Reads (liftM x) := by
  intro b a b' h
  exact (run_lift_eq_ok.mp h).2.symm

theorem Reads.mapM {ι : Type} {step : ι → Working α} (h : ∀ i, Reads (step i)) (l : List ι) :
    Reads (l.mapM step) := by
  induction l with
  | nil =>
    intro b as b' hrun
    rw [List.mapM_nil] at hrun
    exact (run_pure_eq_ok.mp hrun).2.symm
  | cons i rest ih =>
    intro b as b' hrun
    rw [List.mapM_cons] at hrun
    obtain ⟨a, b₁, hfirst, hrun⟩ := run_bind_eq_ok.mp hrun
    obtain ⟨others, b₂, hothers, hrun⟩ := run_bind_eq_ok.mp hrun
    obtain ⟨-, rfl⟩ := run_pure_eq_ok.mp hrun
    exact (ih _ _ _ hothers).trans (h i _ _ _ hfirst)

theorem Accounts.after_reads {run : RunId} {kind : Write → Prop} {m : Working α}
    {f : α → Working Tally} (hm : Reads m) (hf : ∀ a, Accounts run kind (f a)) :
    Accounts run kind (m >>= f) := by
  intro b t b' hrun
  obtain ⟨a, b₁, hfirst, hrest⟩ := run_bind_eq_ok.mp hrun
  rw [hm b a b₁ hfirst] at hrest
  exact hf a b t b' hrest

end Working

open Working (Reads)

/-! ## Writing in place -/

/-- A write of a current fact of a session under the key of the fact, with its value as old one. -/
def Write.Replaces (s : Store) (session : SessionId) (w : Write) : Prop :=
  ∃ fact, s.IsCurrentIn session fact ∧ w.key = fact.key ∧ w.entry.oldValue = fact.value

variable {x : WorkContext} {s : Store} {fact : Fact}

theorem accounts_convertFact (target : String) (h : s.IsCurrentIn x.sessionId fact) :
    Accounts x.run (Write.Replaces s x.sessionId) (convertFact x target fact) := by
  rw [convertFact]
  split
  · exact .pure rfl
  · split
    · exact .pure rfl
    · exact .put fun w hkey hold ↦ ⟨fact, h, hkey, hold⟩

theorem accounts_resetFact (h : s.IsCurrentIn x.sessionId fact) :
    Accounts x.run (Write.Replaces s x.sessionId) (resetFact x fact) := by
  rw [resetFact]
  split
  · exact .pure rfl
  · exact .change (fun _ ↦ rfl) fun w hkey hold ↦ ⟨fact, h, hkey, hold⟩

/-- Every fact that is given a share is one of those that shares were calculated for. -/
private theorem mem_of_mem_shares {facts : List Fact} {share : Fact → Option Decimal}
    {p : Fact × Decimal}
    (hp : p ∈ (facts.map fun fact ↦ (fact, share fact)).filterMap fun q ↦
      q.2.map fun value ↦ (q.1, value)) : p.1 ∈ facts := by
  obtain ⟨q, hq, hvalue⟩ := List.mem_filterMap.mp hp
  obtain ⟨fact, hfact, rfl⟩ := List.mem_map.mp hq
  obtain ⟨value, -, rfl⟩ := Option.map_eq_some_iff.mp hvalue
  exact hfact

theorem accounts_rescaleGroup (total base : Decimal) {facts : List Fact}
    (h : ∀ fact ∈ facts, s.IsCurrentIn x.sessionId fact) :
    Accounts x.run (Write.Replaces s x.sessionId) (rescaleGroup x total base facts) := by
  rw [rescaleGroup]
  refine .add_rejected (.tallyOver fun p hp ↦ ?_) rfl
  have hfact : p.1 ∈ facts := by
    split at hp
    · obtain ⟨q, hq, heq⟩ := List.mem_map.mp (List.of_mem_zip hp).1
      rw [← heq]
      exact mem_of_mem_shares hq
    · exact mem_of_mem_shares hp
  exact .change (fun _ ↦ rfl) fun w hkey hold ↦ ⟨p.1, h p.1 hfact, hkey, hold⟩

theorem accounts_distributeGroup (reference : String) {group : GroupKey × List Fact}
    (h : ∀ fact ∈ group.2, s.IsCurrentIn x.sessionId fact) :
    Accounts x.run (Write.Replaces s x.sessionId) (distributeGroup x reference group) := by
  refine .after_reads .store fun now ↦ .after_reads (.lift _) fun total ↦ ?_
  split
  · exact .pure rfl
  · split
    · exact .pure rfl
    · exact accounts_rescaleGroup _ _ h

/-- The books changed by writes of current facts of a session in place. -/
structure Books.WroteInPlace (run : RunId) (session : SessionId) (ws : List Write) (b b' : Books) :
    Prop where
  replaces : ∀ w ∈ ws, w.Replaces b.store session
  wrote : b.Wrote run ws b'

variable {b b' : Books} {t : Tally}

theorem Working.Accounts.wroteInPlace {m : Working Tally}
    (h : Accounts x.run (Write.Replaces b.store x.sessionId) m) (hrun : m.run b = .ok t b') :
    ∃ ws, b.WroteInPlace x.run x.sessionId ws b' ∧ t.affected = ws.length := by
  obtain ⟨ws, hws, hwrote, hcount⟩ := h b t b' hrun
  exact ⟨ws, ⟨hws, hwrote⟩, hcount⟩

theorem wroteInPlace_convert {target : String} (h : (convert x target).run b = .ok t b') :
    ∃ ws, b.WroteInPlace x.run x.sessionId ws b' ∧ t.affected = ws.length := by
  have hwork := run_store_bind_eq_ok.mp h
  refine Accounts.wroteInPlace (.tallyOver fun fact hfact ↦ ?_) hwork
  exact accounts_convertFact target (Store.isCurrentIn_of_mem_selectCurrent hfact)

theorem wroteInPlace_resetSlice {codes : SortedMap String String}
    (h : (resetSlice x codes).run b = .ok t b') :
    ∃ ws, b.WroteInPlace x.run x.sessionId ws b' ∧ t.affected = ws.length := by
  obtain ⟨f, -, h⟩ := run_lift_bind_eq_ok.mp h
  have hwork := run_store_bind_eq_ok.mp h
  refine Accounts.wroteInPlace (.tallyOver fun fact hfact ↦ ?_) hwork
  exact accounts_resetFact (Store.isCurrentIn_of_mem_selectCurrent hfact)

theorem wroteInPlace_distribute {groupBy : List String} {reference : String}
    (h : (distribute x groupBy reference).run b = .ok t b') :
    ∃ ws, b.WroteInPlace x.run x.sessionId ws b' ∧ t.affected = ws.length := by
  obtain ⟨data, -, h⟩ := run_lift_bind_eq_ok.mp h
  obtain ⟨keyFigure, -, h⟩ := run_lift_bind_eq_ok.mp h
  obtain ⟨dims, b₁, hdims, hrest⟩ := run_bind_eq_ok.mp h
  obtain rfl := Reads.mapM (fun name ↦ Reads.lift _) groupBy _ _ _ hdims
  have hwork := run_store_bind_eq_ok.mp hrest
  refine Accounts.wroteInPlace (.tallyOver fun group hgroup ↦ ?_) hwork
  refine accounts_distributeGroup reference fun fact hfact ↦ ?_
  exact Store.isCurrentIn_of_mem_selectCurrent (mem_of_mem_groupFacts hgroup hfact).1

/-- Whether a planning function writes in place. -/
def PlanningFunction.isInPlace : PlanningFunction → Bool
  | distribute .. => true
  | convert _ => true
  | resetSlice _ => true
  | copy .. => false
  | repost => false

theorem PlanningFunction.wroteInPlace_work {f : PlanningFunction} (hf : f.isInPlace = true)
    (h : (f.work x).run b = .ok t b') :
    ∃ ws, b.WroteInPlace x.run x.sessionId ws b' ∧ t.affected = ws.length := by
  cases f with
  | distribute groupBy reference => exact wroteInPlace_distribute h
  | convert targetUnit => exact wroteInPlace_convert h
  | resetSlice filter => exact wroteInPlace_resetSlice h
  | copy toVersion year period => cases hf
  | repost => cases hf

/-! ## Writing to a new batch -/

/-- The books changed by writes of some cells to a batch that was just created in the store `s`,
with the current values of the cells as old ones. -/
structure Books.WroteNewBatch (run : RunId) (s : Store) (batch : Batch) (cells : Cell → Prop)
    (ws : List Write) (b b' : Books) : Prop where
  cells : ∀ w ∈ ws, cells w.key.cell
  batch_eq : ∀ w ∈ ws, w.key.batch = s.lastBatch + 1
  old_eq : ∀ w ∈ ws, w.entry.oldValue = s.currentValue w.key.cell
  wrote : Books.Wrote run ws { b with store := s.withBatch batch } b'

theorem wroteNewBatch_tallyOver {batch : Batch} {cells : Cell → Prop} {step : Fact → Working Tally}
    {facts : List Fact}
    (hstep : ∀ fact ∈ facts, ∃ c values, cells c ∧
      step fact = x.put (c.inBatch (s.lastBatch + 1)) values (s.currentValue c))
    (h : (tallyOver step facts).run { b with store := s.withBatch batch } = .ok t b') :
    ∃ ws, b.WroteNewBatch x.run s batch cells ws b' ∧ t.affected = ws.length := by
  let kind (w : Write) : Prop := cells w.key.cell ∧ w.key.batch = s.lastBatch + 1 ∧
    w.entry.oldValue = s.currentValue w.key.cell
  have haccounts : Accounts x.run kind (tallyOver step facts) := by
    refine .tallyOver fun fact hfact ↦ ?_
    obtain ⟨c, values, hc, hput⟩ := hstep fact hfact
    rw [hput]
    refine .put fun w hkey hold ↦ ?_
    simp only [kind, hkey, hold]
    exact ⟨hc, rfl, rfl⟩
  obtain ⟨ws, hws, hwrote, hcount⟩ := haccounts _ t b' h
  exact ⟨ws, ⟨fun w hw ↦ (hws w hw).1, fun w hw ↦ (hws w hw).2.1, fun w hw ↦ (hws w hw).2.2,
    hwrote⟩, hcount⟩

/-- Reposting does nothing, or it writes cells of facts of the session to a new batch of it. -/
theorem wroteNewBatch_repost (hs : b.store.WellFormed) (h : (repost x).run b = .ok t b') :
    b' = b ∧ t.affected = 0 ∨ ∃ batch ws, batch.session = x.sessionId ∧
      b.WroteNewBatch x.run b.store batch
        (fun c ↦ ∃ fact ∈ b.store.allFacts, fact.cell = c ∧ c.session = x.sessionId) ws b' ∧
      t.affected = ws.length := by
  obtain ⟨latest, hread, h⟩ := run_lift_bind_eq_ok.mp (run_store_bind_eq_ok.mp h)
  cases latest with
  | none =>
    obtain ⟨rfl, rfl⟩ := run_pure_eq_ok.mp h
    exact .inl ⟨rfl, rfl⟩
  | some latest =>
    obtain ⟨id, batch⟩ := latest
    obtain ⟨facts, hfacts, h⟩ := run_lift_bind_eq_ok.mp (run_store_bind_eq_ok.mp h)
    obtain ⟨created, s, hcreated, hwork⟩ := run_onStore_bind_eq_ok.mp h
    obtain ⟨-, rfl, rfl⟩ := Store.createBatch_eq_ok hcreated
    have hlatest := Store.isLatestBatch_of_latestBatch (PlanningError.ofStore_eq_ok.mp hread)
    have hstep : ∀ fact ∈ facts, ∃ c values,
        (∃ stored ∈ b.store.allFacts, stored.cell = c ∧ c.session = x.sessionId) ∧
          repostFact x (b.store.lastBatch + 1) fact =
            x.put (c.inBatch (b.store.lastBatch + 1)) values (b.store.currentValue c) := by
      intro fact hfact
      have hcurrent := Store.isCurrentIn_of_mem_batchFacts hs hlatest
        (PlanningError.ofStore_eq_ok.mp hfacts) hfact
      refine ⟨fact.cell, fact.values, ⟨fact, hcurrent.newest.mem, rfl, hcurrent.session_eq⟩, ?_⟩
      rw [repostFact, Fact.cell, hcurrent.newest.currentValue_eq]
    obtain ⟨ws, hwrote, hcount⟩ := wroteNewBatch_tallyOver hstep hwork
    exact .inr ⟨_, ws, rfl, hwrote, hcount⟩

/-- The values of selected facts by cell are the current values of the cells that are reached. -/
theorem get?_valuesByCell_selectCurrent {f : Filter} {scope : Scope} {c : Cell}
    (h : f.selects scope c = true) :
    (valuesByCell (s.selectCurrent f scope)).get? c = (s.currentFact? c).map Fact.value := by
  have hmem : ∀ {c value}, (valuesByCell (s.selectCurrent f scope)).get? c = some value →
      ∃ fact, s.currentFact? c = some fact ∧ fact.value = value := by
    intro c value hvalue
    obtain ⟨fact, hfact, heq⟩ := List.mem_map.mp (SortedMap.mem_of_get?_ofList hvalue)
    obtain ⟨rfl, rfl⟩ := Prod.mk.inj heq
    exact ⟨fact, (Store.mem_selectCurrent_iff.mp hfact).1.currentFact?_eq, rfl⟩
  cases hcurrent : s.currentFact? c with
  | none =>
    refine Option.eq_none_iff_forall_ne_some.mpr fun value hvalue ↦ ?_
    obtain ⟨fact, hfact, -⟩ := hmem hvalue
    rw [hcurrent] at hfact
    cases hfact
  | some fact =>
    obtain ⟨hnewest, rfl⟩ := Store.currentFact?_eq_some_iff.mp hcurrent
    have hfact : fact ∈ s.selectCurrent f scope := Store.mem_selectCurrent_iff.mpr ⟨hnewest, h⟩
    obtain ⟨value, hvalue⟩ := SortedMap.exists_get?_ofList
      (List.mem_map_of_mem (f := fun fact ↦ (fact.cell, fact.value)) hfact)
    obtain ⟨other, hother, rfl⟩ := hmem hvalue
    rw [hcurrent, Option.some_inj] at hother
    subst hother
    exact hvalue

theorem periodFilter_keys {period : Option String} {f : Filter}
    (h : x.periodFilter period = .ok f) : ∀ e ∈ f.toList, e.1 = .period := by
  cases period with
  | none =>
    cases h
    exact fun e he ↦ absurd he List.not_mem_nil
  | some text =>
    rw [WorkContext.periodFilter] at h
    obtain ⟨id, -, hfilter⟩ := bind_eq_ok.mp h
    cases hfilter
    intro e he
    have hmem := SortedMap.mem_of_get?_ofList (SortedMap.get?_eq_some_iff.mpr he)
    exact congrArg Prod.fst (List.mem_singleton.mp hmem)

/-- Where the facts of a period are copied, the copies are in the same period of the target. -/
theorem selects_copiedCell {f : Filter} (hf : ∀ e ∈ f.toList, e.1 = .period) {scope : Scope}
    {c : Cell} (h : f.selects scope c = true) (target : SessionId) (version year : DimId) :
    f.selects (.ofSession target) (copiedCell target version year c) = true := by
  rw [Filter.selects, Bool.and_eq_true] at h ⊢
  refine ⟨?_, ?_⟩
  · simp [Scope.contains, Scope.holdsSession, Scope.holdsPeriod, Scope.ofSession, copiedCell]
  · rw [Filter.admits, List.all_eq_true] at h ⊢
    intro e he
    have hsame : (copiedCell target version year c).get? e.1 = c.get? e.1 := by
      rw [hf e he]
      rfl
    rw [hsame]
    exact h.2 e he

/-- Copying does nothing, or it finds or creates the session of the target and writes the copies of
cells to a new batch of it. -/
theorem wroteNewBatch_copy {toVersion year : String} {period : Option String}
    (h : (copy x toVersion year period).run b = .ok t b') :
    b' = b ∧ t.affected = 0 ∨ ∃ version yearId target session s batch ws,
      x.registry.resolve .version toVersion = .ok version ∧
      x.registry.resolve .year year = .ok yearId ∧
      b.store.findOrCreateSession version yearId = ((target, session), s) ∧
      batch.session = target ∧
      b.WroteNewBatch x.run s batch
        (fun c ↦ ∃ fact ∈ b.store.allFacts, copiedCell target version yearId fact.cell = c) ws b' ∧
      t.affected = ws.length := by
  obtain ⟨version, hversion, h⟩ := run_lift_bind_eq_ok.mp h
  obtain ⟨yearId, hyear, h⟩ := run_lift_bind_eq_ok.mp h
  obtain ⟨f, hfilter, h⟩ := run_lift_bind_eq_ok.mp h
  rw [run_store_bind_eq_ok] at h
  dsimp only at h
  split at h
  · obtain ⟨rfl, rfl⟩ := run_pure_eq_ok.mp h
    exact .inl ⟨rfl, rfl⟩
  · obtain ⟨⟨target, session⟩, s, hfound, h⟩ := run_onStore_bind_eq_ok.mp h
    dsimp only at h
    split at h
    · exact absurd h not_run_throw_eq_ok
    · obtain ⟨created, s', hcreated, hwork⟩ :=
        run_onStore_bind_eq_ok.mp (run_store_bind_eq_ok.mp h)
      obtain ⟨-, rfl, rfl⟩ := Store.createBatch_eq_ok hcreated
      have hstep : ∀ fact ∈ b.store.selectCurrent f x.scope, ∃ c values,
          (∃ stored ∈ b.store.allFacts, copiedCell target version yearId stored.cell = c) ∧
            copyFact x (valuesByCell (s.selectCurrent f (.ofSession target))) (s.lastBatch + 1)
                (copiedCell target version yearId) fact =
              x.put (c.inBatch (s.lastBatch + 1)) values (s.currentValue c) := by
        intro fact hfact
        obtain ⟨hnewest, hselects⟩ := Store.mem_selectCurrent_iff.mp hfact
        refine ⟨copiedCell target version yearId fact.cell, fact.values,
          ⟨fact, hnewest.mem, rfl⟩, ?_⟩
        -- The old value is looked up in a selection of the target that holds the copied cell.
        have hreached :=
          selects_copiedCell (periodFilter_keys hfilter) hselects target version yearId
        simp only [copyFact, get?_valuesByCell_selectCurrent hreached]
        rfl
      obtain ⟨ws, hwrote, hcount⟩ := wroteNewBatch_tallyOver (b := b) hstep hwork
      exact .inr ⟨version, yearId, target, session, s, _, ws,
        PlanningError.ofRegistry_eq_ok.mp hversion, PlanningError.ofRegistry_eq_ok.mp hyear,
        Except.ok.inj hfound, rfl, hwrote, hcount⟩

/-! ## Formulas -/

namespace Engine

theorem wrote_forM_settleEntry {run : RunId} {entries : List Entry}
    (h : (entries.forM (settleEntry run false)).run b = .ok () b') :
    ∃ ws : List Write, ws.map Write.entry = entries ∧ b.Wrote run ws b' := by
  induction entries generalizing b with
  | nil =>
    obtain ⟨-, rfl⟩ := run_pure_eq_ok.mp h
    exact ⟨[], rfl, .nil b⟩
  | cons entry rest ih =>
    rw [List.forM] at h
    obtain ⟨u, b₁, hfirst, hrest⟩ := run_bind_eq_ok.mp h
    obtain ⟨u', b₂, hrecord, hwrite⟩ := run_bind_eq_ok.mp hfirst
    obtain ⟨l, hl, rfl⟩ := Working.run_record_eq_ok.mp hrecord
    rw [if_neg Bool.false_ne_true] at hwrite
    obtain ⟨s, hs, rfl⟩ := Working.run_onStore_unit_eq_ok.mp hwrite
    obtain ⟨-, rfl⟩ := Store.update_eq_ok hs
    obtain ⟨ws, hws, hwrote⟩ := ih hrest
    let w : Write :=
      { entry
        defaults := { value := entry.newValue }
        change := fun values ↦ { values with value := entry.newValue }
        value_change := fun _ ↦ rfl }
    refine ⟨w :: ws, by rw [List.map_cons, hws], ?_⟩
    have hone : b.Wrote run [w] { store := w.applyTo b.store, ledger := l } := .single hl rfl
    exact hone.append hwrote

theorem wrote_runWork {e : Engine} {f : PlanFormula} {p : RunPlan} {run : RunId}
    (h : (e.runWork f p false run).run b = .ok () b') : ∃ batch stored s entries ws,
      b.store.ensureBatch p.frame.sessionId = .ok ((batch, stored), s) ∧
      p.combinations.mapM (e.combinationEntry s f p batch) = .ok entries ∧
      ws.map Write.entry = entries ∧ Books.Wrote run ws { b with store := s } b' := by
  rw [run_runWork] at h
  split at h
  · cases h
  · rename_i batch stored s hensure
    split at h
    · cases h
    · rename_i entries hentries
      obtain ⟨ws, hws, hwrote⟩ := wrote_forM_settleEntry h
      exact ⟨batch, stored, s, entries, ws, hensure, hentries, hws, hwrote⟩

end Engine

end PlanLedger
