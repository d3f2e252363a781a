/-
# Checking configurations

Which configurations can be run.  The settings are looked at in a fixed order, and the first one
that is out of range is the one that is named.  A value that cannot be compared with a number where
a number is needed is a value of the wrong type.

What is no number passes a bound that it is asked to be not below, and fails one that it is asked
to be within.
-/
import FormulaEvolution.Configuration.Basic
import FormulaEvolution.Creation
import FormulaEvolution.Crossover
import FormulaEvolution.Mutation
import FormulaEvolution.Symbol.Standard

namespace FormulaEvolution
namespace Configuration

/-! ## 1. Bounds -/

/-- The value of a setting as something that can be compared with a number. -/
def quantity (c : Configuration) (s : Setting) : Except Failure Number.Shape :=
  match shape? (c.value s) with
  | some x => .ok x
  | none => .error (.mistyped .other)

/-- Refuse a configuration unless a condition holds. -/
def demand (holds : Bool) (fault : ConfigurationFault) : Except Failure Unit :=
  if holds then .ok () else .error (.configuration fault)

/-- Whether a setting is not below a bound. -/
def isFrom (c : Configuration) (s : Setting) (bound : Int) : Except Failure Bool := do
  return !(← c.quantity s).less (.ofWhole bound)

/-- Whether a setting is within zero and one. -/
def isChance (c : Configuration) (s : Setting) : Except Failure Bool := do
  let x ← c.quantity s
  return (Number.Shape.ofWhole 0).atMost x && x.atMost (.ofWhole 1)

/-- Whether the elite is within zero and the population's size. -/
def eliteFits (c : Configuration) : Except Failure Bool := do
  let elite ← c.quantity .eliteCount
  let size ← c.quantity .populationSize
  return (Number.Shape.ofWhole 0).atMost elite && elite.atMost size

/-! ## 2. Choices -/

/-- The settings that switch symbol sets on, with their sets, in order. -/
def toggles : List (Setting × SymbolSet) :=
  [(.basicMath, .basic), (.extendedMath, .extended), (.advancedMath, .advanced),
   (.trigonometric, .trigonometric), (.comparison, .comparison), (.bounding, .bounding),
   (.ratio, .ratio), (.statistics, .statistics)]

/-- The symbol sets that are switched on. -/
def symbolSets (c : Configuration) : List SymbolSet :=
  (toggles.filter fun (s, _) => c.isOn s).map (·.2)

/-- The word for drawing one of all mutators each time. -/
def combinedName : String := "combined"

/-- The words that a setting may be, for those that must be one of a few. -/
def choices : List (Setting × List String) :=
  [(.problemType, ["regression", "classification"]),
   (.fitnessType, ["standard", "smooth"]),
   (.creationMethod, Creator.names),
   (.crossoverType, Crossover.Kind.all.map Crossover.Kind.name),
   (.mutationType, Mutator.Kind.all.map Mutator.Kind.name ++ [combinedName])]

/-- Whether a setting is one of some words. -/
def isOneOf (c : Configuration) (s : Setting) (words : List String) : Bool :=
  words.any (c.isWord s)

/-- Refuse words that a setting may not be. -/
def checkChoices (c : Configuration) : List (Setting × List String) → Except Failure Unit
  | [] => .ok ()
  | (s, words) :: rest => do
    demand (c.isOneOf s words) (.choice s.name words (c.value s).shown)
    checkChoices c rest

/-! ## 3. The check -/

/-- Refuse probabilities outside zero and one. -/
def checkChance (c : Configuration) (s : Setting) : Except Failure Unit := do
  demand (← c.isChance s) (.probabilitySetting s.name (c.value s).plain)

/-- Refuse a configuration that cannot be run. -/
def check (c : Configuration) : Except Failure Unit := do
  demand (← c.isFrom .populationSize 1) .populationSetting
  demand (← c.isFrom .maxGenerations 0) .generationsSetting
  demand (← c.isFrom .maxTreeDepth 1) .budgetSettings
  demand (← c.isFrom .maxTreeLength 1) .budgetSettings
  checkChance c .crossoverProbability
  checkChance c .mutationProbability
  demand (← c.isFrom .tournamentSize 1) .tournamentSetting
  demand (← c.eliteFits) .eliteSetting
  demand (← c.isFrom .parsimonyPressure 0) .parsimonySetting
  demand (← c.isFrom .parallelThreshold 1) .thresholdSetting
  demand (!c.symbolSets.isEmpty) .noSymbolSet
  checkChoices c choices
  demand (!(c.isWord .fitnessType "smooth" && !c.isWord .problemType "classification"))
    .smoothRegression

end Configuration
end FormulaEvolution
