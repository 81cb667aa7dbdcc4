import PlanLedger.Proofs.Planning.Placement

/-!
# The writes of formulas and planning functions are truthful

A write in place is on top, since it is of a current fact. A write to the newest batch of its
session or to a batch that was just created is on top, since the batches of a session are written in
the order of their numbers. So in a well-formed store all successful work is accounted for by
truthful writes.
-/

namespace PlanLedger

open Write (Truthful)

namespace Store

/-! ## Places on top -/

def placeOf (s : Store) (c : Cell) : BatchId := ((s.currentFact? c).map (·.key.batch)).getD 0

variable {s : Store}

theorem IsNewest.truthful {fact : Fact} (h : s.IsNewest fact) {w : Write} (hkey : w.key = fact.key)
    (hold : w.entry.oldValue = fact.value) : w.Truthful s s.placeOf := by
  refine ⟨?_, ?_, ?_⟩
  · rw [hkey, placeOf, h.currentFact?_eq]
    rfl
  · rw [hkey]
    exact h.noneNewer
  · rw [hold, hkey, h.currentValue_eq]

theorem noneNewer_withBatch (hs : s.WellFormed) (batch : Batch) (c : Cell) :
    (s.withBatch batch).NoneNewer (c.inBatch (s.lastBatch + 1)) := by
  intro fact hfact _
  obtain ⟨stored, hstored, -⟩ := hs.exists_batch (s := s) hfact
  exact Nat.le_succ_of_le (hs.contents.batch_le _ _ hstored)

theorem truthful_withBatch (hs : s.WellFormed) (batch : Batch) {w : Write}
    (hbatch : w.key.batch = s.lastBatch + 1)
    (hold : w.entry.oldValue = s.currentValue w.key.cell) :
    w.Truthful (s.withBatch batch) fun _ ↦ s.lastBatch + 1 := by
  refine ⟨hbatch, ?_, ?_⟩
  · have hkey : w.key = w.key.cell.inBatch (s.lastBatch + 1) := by
      rw [← hbatch]
      rfl
    rw [hkey]
    exact noneNewer_withBatch hs batch w.key.cell
  · rw [hold]
    exact currentValue_of_facts rfl w.key.cell

end Store

/-! ## Planning functions -/

/-- The books are accounted for by writes that are truthful against a store with the same facts as
before; sessions and batches may have been added to it. -/
def Books.AccountedFor (run : RunId) (ws : List Write) (b b' : Books) : Prop :=
  ∃ (s : Store) (place : Cell → BatchId), s.facts = b.store.facts ∧
    (∀ w ∈ ws, w.Truthful s place) ∧ Books.Wrote run ws { b with store := s } b'

variable {x : WorkContext} {b b' : Books} {t : Tally}

theorem Books.AccountedFor.nil (run : RunId) (b : Books) : b.AccountedFor run [] b :=
  ⟨b.store, b.store.placeOf, rfl, by simp, .nil b⟩

theorem Books.WroteInPlace.accountedFor {run : RunId} {session : SessionId} {ws : List Write}
    (h : b.WroteInPlace run session ws b') : b.AccountedFor run ws b' := by
  refine ⟨b.store, b.store.placeOf, rfl, fun w hw ↦ ?_, h.wrote⟩
  obtain ⟨fact, hcurrent, hkey, hold⟩ := h.replaces w hw
  exact hcurrent.newest.truthful hkey hold

theorem Books.WroteNewBatch.accountedFor {run : RunId} {s : Store} {batch : Batch}
    {cells : Cell → Prop} {ws : List Write} (h : b.WroteNewBatch run s batch cells ws b')
    (hs : s.WellFormed) (hfacts : s.facts = b.store.facts) : b.AccountedFor run ws b' := by
  refine ⟨s.withBatch batch, fun _ ↦ s.lastBatch + 1, hfacts, fun w hw ↦ ?_, h.wrote⟩
  exact Store.truthful_withBatch hs batch (h.batch_eq w hw) (h.old_eq w hw)

/-- **Planning functions.** Whatever a planning function does to the values of cells, it lists, and
it counts what it lists. -/
theorem PlanningFunction.accountedFor_work (f : PlanningFunction) (hs : b.store.WellFormed)
    (h : (f.work x).run b = .ok t b') :
    ∃ ws, b.AccountedFor x.run ws b' ∧ t.affected = ws.length := by
  cases f with
  | repost =>
    rcases wroteNewBatch_repost hs h with ⟨rfl, hnone⟩ | ⟨batch, ws, -, hwrote, hcount⟩
    · exact ⟨[], .nil x.run _, hnone⟩
    · exact ⟨ws, hwrote.accountedFor hs rfl, hcount⟩
  | copy toVersion year period =>
    rcases wroteNewBatch_copy h with ⟨rfl, hnone⟩ |
      ⟨version, yearId, target, session, s, batch, ws, -, -, hfound, -, hwrote, hcount⟩
    · exact ⟨[], .nil x.run _, hnone⟩
    · have hedit := b.store.edit_findOrCreateSession version yearId
      have hfacts := b.store.facts_findOrCreateSession version yearId
      rw [hfound] at hedit hfacts
      exact ⟨ws, hwrote.accountedFor (hs.edit hedit) hfacts, hcount⟩
  | _ =>
    obtain ⟨ws, hwrote, hcount⟩ := PlanningFunction.wroteInPlace_work rfl h
    exact ⟨ws, hwrote.accountedFor, hcount⟩

/-! ## Formulas -/

theorem Engine.EntryOf.truthful {s : Store} {session : SessionId} {id : BatchId} {batch : Batch}
    {w : Write} (h : Engine.EntryOf s session id w.entry) (hs : s.WellFormed)
    (hlatest : s.IsLatestBatch session id batch) : w.Truthful s fun _ ↦ id := by
  refine ⟨h.batch_eq, ?_, h.old_eq⟩
  have hkey : w.key = w.key.cell.inBatch id := by
    rw [← h.batch_eq]
    rfl
  rw [hkey]
  exact hlatest.noneNewer hs h.session_eq

theorem Engine.accountedFor_runWork {e : Engine} {f : PlanFormula} {p : RunPlan} {run : RunId}
    (hs : b.store.WellFormed) (h : (e.runWork f p false run).run b = .ok () b') :
    ∃ ws, b.AccountedFor run ws b' := by
  obtain ⟨batch, stored, s, entries, ws, hensure, hentries, hws, hwrote⟩ := wrote_runWork h
  have hlatest := (Store.ensureBatch_eq_ok hensure).1
  have hwell : s.WellFormed := hs.edit (Store.edit_ensureBatch hensure)
  refine ⟨ws, s, fun _ ↦ batch, Store.facts_ensureBatch hensure, fun w hw ↦ ?_, hwrote⟩
  have hentry : w.entry ∈ entries := by
    rw [← hws]
    exact List.mem_map_of_mem hw
  exact (entryOf_mem hentries w.entry hentry).truthful hwell hlatest

end PlanLedger
