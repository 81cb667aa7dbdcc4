import PlanLedger.Planning.FunctionRun
import PlanLedger.Proofs.Planning.Working

/-!
# Formulas and planning functions stay under their run

Whatever a formula or a planning function does, and wherever it fails, it edits the store and lists
entries under its own run. The proofs follow the text of the work; the edits are those of the
operations it calls.
-/

namespace PlanLedger

open Working

variable {x : WorkContext}

/-! ## Writing facts -/

namespace WorkContext

theorem under_record (key : FactKey) (oldValue newValue : Decimal) :
    Under x.run (x.record key oldValue newValue) :=
  (Under.record _).bind fun _ ↦ .pure _

theorem under_put (key : FactKey) (values : FactValues) (oldValue : Decimal) :
    Under x.run (x.put key values oldValue) := by
  refine (Under.onStore fun s id s' h ↦ Store.edit_put h).bind fun _ ↦ ?_
  exact under_record _ _ _

theorem under_unit {run : RunId} {change : Store → Except StoreError Store}
    (h : ∀ s s', change s = .ok s' → Store.Edit s s') :
    Under run (onStore fun s ↦ return ((), ← change s)) := by
  exact Under.onStore fun s u s' hs ↦ h s s' (return_unit_eq_ok.mp hs)

theorem under_change (fact : Fact) (f : FactValues → FactValues) :
    Under x.run (x.change fact f) := by
  refine (under_unit fun s s' h ↦ Store.edit_update h).bind fun _ ↦ ?_
  exact under_record _ _ _

end WorkContext

open WorkContext

/-! ## Planning functions -/

theorem under_copy (toVersion year : String) (period : Option String) :
    Under x.run (copy x toVersion year period) := by
  refine (Under.lift _).bind fun version ↦ (Under.lift _).bind fun yearId ↦
    (Under.lift _).bind fun f ↦ Under.store.bind fun s ↦ ?_
  dsimp only
  split
  · exact .pure _
  · refine (Under.onStore fun s r s' h ↦ ?_).bind fun target ↦ ?_
    · -- The target session is there, or it is added.
      have hedit := s.edit_findOrCreateSession version yearId
      rwa [Except.ok.inj h] at hedit
    · split
      · exact .throw _
      · refine Under.store.bind fun s ↦
          (Under.onStore fun s id s' h ↦ Store.edit_createBatch h).bind fun batch ↦
            .tallyOver (fun fact ↦ ?_) _
        exact under_put _ _ _

theorem under_distribute (groupBy : List String) (reference : String) :
    Under x.run (distribute x groupBy reference) := by
  refine (Under.lift _).bind fun data ↦ (Under.lift _).bind fun keyFigure ↦
    (Under.mapM (fun name ↦ Under.lift _) _).bind fun dims ↦ Under.store.bind fun s ↦
      .tallyOver (fun group ↦ ?_) _
  refine Under.store.bind fun s ↦ (Under.lift _).bind fun total ↦ ?_
  split
  · exact .pure _
  · split
    · exact .pure _
    · refine (Under.tallyOver (fun p ↦ ?_) _).bind fun tally ↦ .pure _
      exact under_change _ _

theorem under_convert (target : String) : Under x.run (convert x target) := by
  refine Under.store.bind fun s ↦ .tallyOver (fun fact ↦ ?_) _
  rw [convertFact]
  split
  · exact .pure _
  · split
    · exact .pure _
    · exact under_put _ _ _

theorem under_repost : Under x.run (repost x) := by
  refine Under.store.bind fun s ↦ (Under.lift _).bind fun latest ↦ ?_
  cases latest with
  | none => exact .pure _
  | some latest =>
    refine Under.store.bind fun s ↦ (Under.lift _).bind fun facts ↦
      (Under.onStore fun s id s' h ↦ Store.edit_createBatch h).bind fun batch ↦
        .tallyOver (fun fact ↦ ?_) _
    exact under_put _ _ _

theorem under_resetSlice (codes : SortedMap String String) : Under x.run (resetSlice x codes) := by
  refine (Under.lift _).bind fun f ↦ Under.store.bind fun s ↦ .tallyOver (fun fact ↦ ?_) _
  rw [resetFact]
  split
  · exact .pure _
  · exact under_change _ _

theorem PlanningFunction.under_work (f : PlanningFunction) (x : WorkContext) :
    Under x.run (f.work x) := by
  cases f with
  | copy toVersion year period => exact under_copy toVersion year period
  | distribute groupBy reference => exact under_distribute groupBy reference
  | convert targetUnit => exact under_convert targetUnit
  | repost => exact under_repost
  | resetSlice filter => exact under_resetSlice filter

/-! ## Formulas -/

namespace Engine

theorem under_settleEntry (run : RunId) (preview : Bool) (entry : Entry) :
    Under run (settleEntry run preview entry) := by
  refine (Under.record entry).bind fun _ ↦ ?_
  cases preview with
  | true => exact .pure _
  | false => exact under_unit fun s s' h ↦ Store.edit_update h

theorem under_runWork (e : Engine) (f : PlanFormula) (p : RunPlan) (preview : Bool) (run : RunId) :
    Under run (e.runWork f p preview run) := by
  refine (Under.onStore fun s r s' h ↦ Store.edit_ensureBatch h).bind fun batch ↦
    Under.store.bind fun s ↦ (Under.lift _).bind fun entries ↦ ?_
  exact .forM (under_settleEntry run preview) _

end Engine

end PlanLedger
