import PlanLedger.Proofs.Planning.Amending
import PlanLedger.Proofs.Planning.Reachable

/-!
# Converting units

What becomes of a fact when its session is converted to a target unit depends on its values alone,
and it is told here by cases that do not mention how the facts are gone through. Exactly one of the
cases applies to a fact. A fact that is restated has the target unit, and such a fact is left alone;
so a second conversion has nothing to do.
-/

namespace PlanLedger

open Formula (UnitConversions)

section

variable (u : UnitConversions) (places : Nat) (target : String)

/-! ## The cases -/

/-- The factor for a reference value that is restated, by its unit, where the value has a unit with
a factor to the target unit. -/
inductive RefConverts (unit : String) (factor : Decimal) : Option String → Option Decimal → Prop
  /-- A reference value without a unit follows the value. -/
  | unitless : RefConverts unit factor none (some factor)
  | sameUnit : RefConverts unit factor (some unit) (some factor)
  /-- A reference value in the target unit is kept. -/
  | inTarget (hne : target ≠ unit) : RefConverts unit factor (some target) none
  | ownFactor {refUnit : String} {refFactor : Decimal} (hne : refUnit ≠ unit)
      (hother : refUnit ≠ target) (h : u.factor? refUnit target = some refFactor) :
      RefConverts unit factor (some refUnit) (some refFactor)
  | noFactor {refUnit : String} (hne : refUnit ≠ unit) (hother : refUnit ≠ target)
      (h : u.factor? refUnit target = none) : RefConverts unit factor (some refUnit) none

/-- A value in another unit than the target unit, with a factor to it. -/
structure FactValues.HasFactor (values : FactValues) (unit : String) (factor : Decimal) : Prop where
  unit_eq : values.unit = some unit
  other : unit ≠ target
  factor_eq : u.factor? unit target = some factor

/-- What becomes of values that are converted to a target unit. -/
inductive Converts (values : FactValues) : Fate → Prop
  | noUnit (h : values.unit = none) : Converts values .left
  | inTarget (h : values.unit = some target) : Converts values .left
  | noFactor {unit : String} (hunit : values.unit = some unit) (hother : unit ≠ target)
      (h : u.factor? unit target = none) : Converts values .left
  | valueOverflow {unit : String} {factor : Decimal}
      (hfactor : values.HasFactor u target unit factor) (h : values.value.mul? factor = none) :
      Converts values (.reported (.convertOverflow unit target))
  | refOverflow {unit : String} {factor product refFactor : Decimal}
      (hfactor : values.HasFactor u target unit factor)
      (hvalue : values.value.mul? factor = some product)
      (href : RefConverts u target unit factor values.refUnit (some refFactor))
      (h : values.refValue.mul? refFactor = none) : Converts values (.reported .referenceOverflow)
  /-- The value is restated and the reference value is kept. -/
  | valueOnly {unit : String} {factor product : Decimal}
      (hfactor : values.HasFactor u target unit factor)
      (hvalue : values.value.mul? factor = some product)
      (href : RefConverts u target unit factor values.refUnit none) :
      Converts values (.restated
        { values with value := product.toPlaces places, unit := some target })
  /-- Both are restated; the reference value has the target unit then, if it has a unit. -/
  | both {unit : String} {factor product refFactor refProduct : Decimal}
      (hfactor : values.HasFactor u target unit factor)
      (hvalue : values.value.mul? factor = some product)
      (href : RefConverts u target unit factor values.refUnit (some refFactor))
      (hrefValue : values.refValue.mul? refFactor = some refProduct) :
      Converts values (.restated
        { value := product.toPlaces places, unit := some target
          refValue := refProduct.toPlaces places
          refUnit := values.refUnit.map fun _ ↦ target })

/-! ## The cases are exact -/

/-- What becomes of values as converting them finds it. -/
def conversionFate (values : FactValues) : Fate :=
  match values.unit with
  | none => .left
  | some unit =>
    if unit = target then .left
    else
      match u.factor? unit target with
      | none => .left
      | some factor =>
        match convertValues u places factor unit target values with
        | .error fault => .reported fault
        | .ok values => .restated values

end

variable {u : UnitConversions} {places : Nat} {target unit : String} {factor : Decimal}
  {values : FactValues}

theorem refConverts_iff {refUnit : Option String} {found : Option Decimal}
    (hother : unit ≠ target) :
    RefConverts u target unit factor refUnit found ↔
      refFactor? u factor unit target refUnit = found := by
  constructor
  · intro h
    cases h with
    | unitless => rfl
    | sameUnit => rw [refFactor?, if_pos rfl]
    | inTarget hne => rw [refFactor?, if_neg hne, if_pos rfl]
    | ownFactor hne hother h => rw [refFactor?, if_neg hne, if_neg hother, h]
    | noFactor hne hother h => rw [refFactor?, if_neg hne, if_neg hother, h]
  · rintro rfl
    cases refUnit with
    | none => exact .unitless
    | some refUnit =>
      rw [refFactor?]
      split_ifs with hsame htarget
      · exact hsame ▸ .sameUnit
      · subst htarget
        exact .inTarget hsame
      · cases h : u.factor? refUnit target with
        | none => exact .noFactor hsame htarget h
        | some refFactor => exact .ownFactor hsame htarget h

theorem convertNumber?_of_none {d : Decimal} (h : d.mul? factor = none) :
    convertNumber? d factor places = none := by
  rw [convertNumber?, h, Option.map_none]

theorem convertNumber?_of_some {d product : Decimal} (h : d.mul? factor = some product) :
    convertNumber? d factor places = some (product.toPlaces places) := by
  rw [convertNumber?, h, Option.map_some]

theorem FactValues.HasFactor.conversionFate_eq (h : values.HasFactor u target unit factor) :
    conversionFate u places target values =
      match convertValues u places factor unit target values with
      | .error fault => .reported fault
      | .ok values => .restated values := by
  simp only [conversionFate, h.unit_eq, h.factor_eq, if_neg h.other]

/-- Values with a factor to the target unit are converted in one of the four cases in which the
value is multiplied. -/
theorem FactValues.HasFactor.converts (h : values.HasFactor u target unit factor) :
    Converts u places target values (conversionFate u places target values) := by
  rw [h.conversionFate_eq, convertValues]
  cases hvalue : values.value.mul? factor with
  | none =>
    rw [convertNumber?_of_none hvalue]
    exact .valueOverflow h hvalue
  | some product =>
    rw [convertNumber?_of_some hvalue]
    dsimp only
    have href : RefConverts u target unit factor values.refUnit
        (refFactor? u factor unit target values.refUnit) := (refConverts_iff h.other).mpr rfl
    cases hfound : refFactor? u factor unit target values.refUnit with
    | none =>
      rw [hfound] at href
      exact .valueOnly h hvalue href
    | some refFactor =>
      rw [hfound] at href
      dsimp only
      cases hrefValue : values.refValue.mul? refFactor with
      | none =>
        rw [convertNumber?_of_none hrefValue]
        exact .refOverflow h hvalue href hrefValue
      | some refProduct =>
        rw [convertNumber?_of_some hrefValue]
        exact .both h hvalue href hrefValue

/-- **Exactly one case.** What becomes of values is what converting them finds, and nothing else. -/
theorem converts_iff {fate : Fate} :
    Converts u places target values fate ↔ fate = conversionFate u places target values := by
  constructor
  · intro h
    cases h with
    | noUnit h => rw [conversionFate, h]
    | inTarget h => simp only [conversionFate, h, if_true]
    | noFactor hunit hother h => simp only [conversionFate, hunit, if_neg hother, h]
    | valueOverflow hfactor h =>
      rw [hfactor.conversionFate_eq, convertValues, convertNumber?_of_none h]
    | refOverflow hfactor hvalue href h =>
      simp only [hfactor.conversionFate_eq, convertValues, convertNumber?_of_some hvalue,
        (refConverts_iff hfactor.other).mp href, convertNumber?_of_none h]
    | valueOnly hfactor hvalue href =>
      simp only [hfactor.conversionFate_eq, convertValues, convertNumber?_of_some hvalue,
        (refConverts_iff hfactor.other).mp href]
      rfl
    | both hfactor hvalue href hrefValue =>
      simp only [hfactor.conversionFate_eq, convertValues, convertNumber?_of_some hvalue,
        (refConverts_iff hfactor.other).mp href, convertNumber?_of_some hrefValue]
      rfl
  · rintro rfl
    cases hunit : values.unit with
    | none =>
      rw [conversionFate, hunit]
      exact .noUnit hunit
    | some unit =>
      by_cases hother : unit = target
      · subst hother
        simp only [conversionFate, hunit, if_true]
        exact .inTarget hunit
      · cases hfactor : u.factor? unit target with
        | none =>
          simp only [conversionFate, hunit, if_neg hother, hfactor]
          exact .noFactor hunit hother hfactor
        | some factor => exact FactValues.HasFactor.converts ⟨hunit, hother, hfactor⟩

theorem unit_of_converts {new : FactValues} (h : Converts u places target values (.restated new)) :
    new.unit = some target := by
  cases h <;> rfl

theorem conversionFate_of_restated {new : FactValues}
    (h : conversionFate u places target values = .restated new) :
    conversionFate u places target new = .left :=
  (converts_iff.mp (.inTarget (unit_of_converts (converts_iff.mpr h.symm)))).symm

/-! ## Converting a session -/

theorem convertFact_eq (x : WorkContext) (target : String) (fact : Fact) :
    convertFact x target fact =
      match conversionFate x.catalog.conversions x.scale target fact.values with
      | .left => pure {}
      | .reported fault => pure (x.rejected [fact] fault)
      | .restated values => x.put fact.key values fact.value := by
  rw [convertFact, conversionOf?, conversionFate]
  cases hunit : fact.values.unit with
  | none => rfl
  | some unit =>
    by_cases hother : unit = target
    · simp [hother]
    · cases hfactor : x.catalog.conversions.factor? unit target with
      | none => simp [hother, hfactor]
      | some factor =>
        cases hvalues :
          convertValues x.catalog.conversions x.scale factor unit target fact.values <;>
          simp [hother, hfactor, hvalues]

def conversion (x : WorkContext) (target : String) : Amendment x where
  fate fact := conversionFate x.catalog.conversions x.scale target fact.values
  step := convertFact x target
  write fact values := x.putWrite fact.key values fact.value
  entry_eq _ _ := rfl
  change_eq _ _ _ := rfl
  does fact := by
    rw [convertFact_eq]
    cases conversionFate x.catalog.conversions x.scale target fact.values with
    | left => exact .pure x.run []
    | reported fault => exact .pure x.run _
    | restated values => exact .put x fact.key values fact.value

namespace Engine

variable {e : Engine}

/-- What becomes of a fact when it is converted in an engine. -/
def conversionFate (e : Engine) (target : String) (fact : Fact) : Fate :=
  PlanLedger.conversionFate e.catalog.conversions e.options.scale target fact.values

theorem amends_convert (e : Engine) (id : SessionId) (target : String) (session : Session)
    (run : RunId) : (PlanningFunction.convert target).Amends (e.workContext id session run) ∅
      (e.conversionFate target) :=
  ⟨conversion _ target, rfl, fun _ ↦ rfl⟩

/-- **Conversions.** In a reachable engine exactly one of the cases applies to each fact, and from
it follows what becomes of the fact. A conversion of a session that there is succeeds outside of a
unit of work, unless it has more facts than a run has entries. One that succeeds leaves every
current fact of the session as the fact itself or as what it is restated to, under its key and with
its number. It lists the restated facts, it reports those whose product does not fit, both in the
order of the cells, and it changes nothing else. A second conversion to the same unit succeeds,
changes and lists nothing, and reports the same facts. -/
theorem convert_exact (h : e.Reachable) (id : SessionId) (target : String) :
    ∃ fate : Fact → Fate,
      (∀ fact found, Converts e.catalog.conversions e.options.scale target fact.values found ↔
        found = fate fact) ∧
      (∀ session, e.sessionOfWork id = .ok session → e.store.inUnit = false →
        (e.store.selectCurrent ∅ (.ofSession id)).length ≤ maxEntries →
          ∃ outcome, (e.runFunction (.convert target) id).1 = .ok outcome) ∧
      ∀ outcome, (e.runFunction (.convert target) id).1 = .ok outcome →
        e.store.Amended (e.runFunction (.convert target) id).2.store
          (e.store.selectCurrent ∅ (.ofSession id)) fate ∧
        outcome.OfAmended e.registry (e.store.selectCurrent ∅ (.ofSession id)) fate ∧
        ∃ again,
          ((e.runFunction (.convert target) id).2.runFunction (.convert target) id).1 = .ok again ∧
          again.affected = 0 ∧ again.entries = [] ∧ again.errors = outcome.errors ∧
          ((e.runFunction (.convert target) id).2.runFunction (.convert target) id).2.store =
            (e.runFunction (.convert target) id).2.store := by
  refine ⟨e.conversionFate target, fun fact found ↦ converts_iff,
    fun session hsession hfree hroom ↦ ?_, fun outcome hrun ↦ ?_⟩
  · refine exists_outcome_of_amends h.wellFormed (e.amends_convert id target) hsession hfree ?_
    exact Nat.le_trans (List.length_filterMap_le _ _) hroom
  · obtain ⟨hamended, hreported⟩ := amended_runFunction (e.amends_convert id target) hrun
    refine ⟨hamended, hreported, ?_⟩
    exact rerun_of_amends h.wellFormed (e.amends_convert id target)
      (fun _ _ ↦ conversionFate_of_restated) hrun

/-- A number that fits, while ten times the number does not. -/
private def large : Decimal := { Decimal.zero with mantissa := 10 ^ 28, mantissa_lt := by decide }

/-- The small plan with three facts: one in euros with a reference value in pounds, one in euros
with the large value, and one without a unit. A euro is ten dollars and a pound twenty. -/
private def ratesPlan : Engine := { smallPlan with
  store := ((smallStore.after (.put ((smallCell 1).inBatch 1)
      { value := ten, refValue := ten, unit := some "EUR", refUnit := some "GBP" })).after
        (.put ((smallCell 2).inBatch 1) { value := large, unit := some "EUR" })).after
          (.put ((smallCell 3).inBatch 1) { value := ten })
  catalog := {
    conversions := .ofList [("EUR", .ofList [("USD", ten)]), ("GBP", .ofList [("USD", twenty)])] } }

/-- Converted to dollars the first fact is restated with its reference value, the second one is
reported, and the third one is left alone. -/
theorem convert_exact_rates : ratesPlan.Reachable ∧ ∃ fate outcome,
    (ratesPlan.store.selectCurrent ∅ (.ofSession 1)).map fate =
      [.restated
        { value := ⟨false, 1000000, 4, by decide, by decide⟩, unit := some "USD"
          refValue := ⟨false, 2000000, 4, by decide, by decide⟩, refUnit := some "USD" },
        .reported (.convertOverflow "EUR" "USD"), .left] ∧
      (ratesPlan.runFunction (.convert "USD") 1).1 = .ok outcome ∧
      ratesPlan.store.Amended (ratesPlan.runFunction (.convert "USD") 1).2.store
        (ratesPlan.store.selectCurrent ∅ (.ofSession 1)) fate ∧
      outcome.OfAmended ratesPlan.registry (ratesPlan.store.selectCurrent ∅ (.ofSession 1))
        fate := by
  have hreachable : ratesPlan.Reachable :=
    .new (((reachable_smallStore.call _).call _).call _) _ _ _ _
  obtain ⟨fate, hfate, hsucceeds, hdone⟩ := convert_exact hreachable 1 "USD"
  obtain ⟨outcome, hrun⟩ := hsucceeds { version := 1, year := 1, orgUnit := some 1 }
    (by decide +kernel) (by decide +kernel) (by decide +kernel)
  obtain ⟨hamended, hreported, -⟩ := hdone outcome hrun
  have hfound : fate = ratesPlan.conversionFate "USD" :=
    funext fun fact ↦ ((hfate fact _).mp (converts_iff.mpr rfl)).symm
  refine ⟨hreachable, fate, outcome, ?_, hrun, hamended, hreported⟩
  rw [hfound]
  decide +kernel

end Engine

end PlanLedger
