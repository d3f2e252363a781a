/-
# Configurations

Everything needed to repeat a run, as one value for each of a fixed list of settings.  A value is
whatever a document holds for the setting; `Configuration.check` (in `Configuration.Check`) says
whether the values make sense together, and the readers at the end of this module give the value of
a setting the type that its use needs.

A document for a configuration is an object whose names are names of settings; settings that it
leaves out keep their usual values.
-/
import FormulaEvolution.Json.Display
import FormulaEvolution.Json.Writer
import FormulaEvolution.Number.Order

namespace FormulaEvolution

/-! ## 1. Settings -/

/-- A setting. -/
inductive Setting where
  | populationSize
  | maxGenerations
  | randomSeed
  | maxTreeDepth
  | maxTreeLength
  | crossoverProbability
  | mutationProbability
  | tournamentSize
  | eliteCount
  | targetFitness
  | basicMath
  | extendedMath
  | advancedMath
  | trigonometric
  | comparison
  | bounding
  | ratio
  | statistics
  | constants
  | problemType
  | fitnessType
  | parsimonyPressure
  | creationMethod
  | crossoverType
  | mutationType
  | compilation
  | parallelEvaluation
  | parallelThreshold
  deriving DecidableEq, Repr

namespace Setting

/-- All settings, in the order in which documents hold them. -/
def all : List Setting :=
  [populationSize, maxGenerations, randomSeed, maxTreeDepth, maxTreeLength, crossoverProbability,
   mutationProbability, tournamentSize, eliteCount, targetFitness, basicMath, extendedMath,
   advancedMath, trigonometric, comparison, bounding, ratio, statistics, constants, problemType,
   fitnessType, parsimonyPressure, creationMethod, crossoverType, mutationType, compilation,
   parallelEvaluation, parallelThreshold]

theorem mem_all (s : Setting) : s ∈ all := by cases s <;> decide

/-- The name of a setting in documents. -/
def name : Setting → String
  | populationSize => "population_size"
  | maxGenerations => "max_generations"
  | randomSeed => "random_seed"
  | maxTreeDepth => "max_tree_depth"
  | maxTreeLength => "max_tree_length"
  | crossoverProbability => "crossover_probability"
  | mutationProbability => "mutation_probability"
  | tournamentSize => "tournament_size"
  | eliteCount => "elite_count"
  | targetFitness => "target_fitness"
  | basicMath => "use_basic_math"
  | extendedMath => "use_extended_math"
  | advancedMath => "use_advanced_math"
  | trigonometric => "use_trigonometric"
  | comparison => "use_comparison"
  | bounding => "use_bounding"
  | ratio => "use_ratio"
  | statistics => "use_statistics"
  | constants => "allow_constants"
  | problemType => "problem_type"
  | fitnessType => "fitness_type"
  | parsimonyPressure => "parsimony_pressure"
  | creationMethod => "creation_method"
  | crossoverType => "crossover_type"
  | mutationType => "mutation_type"
  | compilation => "use_compilation"
  | parallelEvaluation => "enable_parallel_evaluation"
  | parallelThreshold => "parallel_threshold"

/-- The setting of a name. -/
def ofName? (name : String) : Option Setting := all.find? (·.name = name)

/-- The value of a setting that nothing else is said about. -/
def usual : Setting → Json
  | populationSize => .int 50
  | maxGenerations => .int 25
  | randomSeed => .int 42
  | maxTreeDepth => .int 12
  | maxTreeLength => .int 100
  | crossoverProbability => .float 0.9
  | mutationProbability => .float 0.1
  | tournamentSize => .int 3
  | eliteCount => .int 1
  | targetFitness => .null
  | basicMath => .bool true
  | extendedMath => .bool false
  | advancedMath => .bool false
  | trigonometric => .bool false
  | comparison => .bool false
  | bounding => .bool false
  | ratio => .bool false
  | statistics => .bool false
  | constants => .bool true
  | problemType => .string "regression"
  | fitnessType => .string "standard"
  | parsimonyPressure => .float 0.001
  | creationMethod => .string "grow"
  | crossoverType => .string "subtree"
  | mutationType => .string "subtree"
  | compilation => .bool true
  | parallelEvaluation => .bool true
  | parallelThreshold => .int 100

end Setting

/-! ## 2. Configurations -/

/-- A value for each setting. -/
structure Configuration where
  value : Setting → Json

namespace Configuration

/-- The usual value for each setting. -/
def usual : Configuration := ⟨Setting.usual⟩

/-- The same configuration with another value for one setting. -/
def set (c : Configuration) (s : Setting) (v : Json) : Configuration :=
  ⟨fun t => if t = s then v else c.value t⟩

/-- Set several settings, one after the other. -/
def setAll (c : Configuration) (changes : List (Setting × Json)) : Configuration :=
  changes.foldl (fun c (s, v) => c.set s v) c

@[simp] theorem value_set_self (c : Configuration) (s : Setting) (v : Json) :
    (c.set s v).value s = v := by simp [set]

theorem value_set_other (c : Configuration) {s t : Setting} (v : Json) (h : t ≠ s) :
    (c.set s v).value t = c.value t := by simp [set, h]

/-- A configuration as a document: all settings, in order. -/
def toJson (c : Configuration) : Json := .object (Setting.all.map fun s => (s.name, c.value s))

/-- A configuration as the text of a document. -/
def write (c : Configuration) : String := c.toJson.write

/-! ## 3. Reading documents -/

/-- How an unknown name is shown: a document that is a list may hold anything that can be told
apart from the names of settings. -/
def unknownItems : List Json → Except Failure (List Json)
  | [] => .ok []
  | item :: rest => do
    let others ← unknownItems rest
    match item with
    | .list _ => throw (.mistyped .other)
    | .object _ => throw (.mistyped .other)
    | .string s => return if (Setting.ofName? s).isSome then others else item :: others
    | _ => return item :: others

/-- The shape of a value that counts as a number. -/
def shape? : Json → Option Number.Shape
  | .bool b => some (.ofWhole (if b then 1 else 0))
  | .int n => some (.ofWhole n)
  | .float x => some (Number.decode x)
  | _ => none

/-- Whether two items of a list of names are the same. -/
def sameItem (a b : Json) : Bool :=
  match a, b with
  | .null, .null => true
  | .string s, .string t => s = t
  | _, _ =>
    match shape? a, shape? b with
    | some x, some y => x.atMost y && y.atMost x
    | _, _ => false

/-- Whether an item may stand before another one in rising order, if they can be compared. -/
def inOrder? (a b : Json) : Option Bool :=
  match a, b with
  | .string s, .string t => some (decide (s ≤ t))
  | _, _ =>
    match shape? a, shape? b with
    | some x, some y => some (!y.less x)
    | _, _ => none

/-- Each item once, the first of equals. -/
def distinctItems : List Json → List Json
  | [] => []
  | item :: rest => item :: (distinctItems rest).filter (!sameItem item ·)

/-- Items in rising order, which they have if any two can be compared. -/
def sortItems (items : List Json) : Except Failure (List Json) :=
  if items.length ≤ 1 || items.all fun a => items.all fun b => (inOrder? a b).isSome then
    .ok (items.mergeSort fun a b => (inOrder? a b).getD true)
  else .error (.mistyped .other)

/-- Refuse unknown names. -/
def refuseUnknown (names : List Json) : Except Failure Unit := do
  let unknown := distinctItems (← unknownItems names)
  if unknown.isEmpty then return ()
  else throw (.configuration (.unknownKeys (Json.shown (.list (← sortItems unknown)))))

/-- The settings that fields of an object set. -/
def changesOf (fields : List (String × Json)) : List (Setting × Json) :=
  fields.filterMap fun (name, value) => (Setting.ofName? name).map (·, value)

/-- Read a document.  A list or a text has names that may be refused, but sets nothing. -/
def ofJson : Json → Except Failure Configuration
  | .object fields => do
    refuseUnknown (fields.map fun (name, _) => .string name)
    return usual.setAll (changesOf fields)
  | .list items => do
    refuseUnknown items
    throw (.mistyped .other)
  | .string s => do
    refuseUnknown (s.toList.map fun c => .string c.toString)
    throw (.mistyped .other)
  | _ => .error (.mistyped .other)

/-- Read the text of a document. -/
def ofText (text : String) : Except Failure Configuration :=
  match Json.read text with
  | .ok data => ofJson data
  | .error fault => .error (.document fault)

/-! ## 4. Values by type -/

/-- The value of a setting as a whole number; truth values count as one and zero. -/
def whole (c : Configuration) (s : Setting) : Except Failure Int :=
  match c.value s with
  | .int n => .ok n
  | .bool b => .ok (if b then 1 else 0)
  | _ => .error (.mistyped .other)

/-- The value of a setting as a double. -/
def number (c : Configuration) (s : Setting) : Except Failure Float :=
  match c.value s with
  | .string _ => .error (.mistyped .other)
  | value => value.toFloat

/-- Whether a setting is switched on. -/
def isOn (c : Configuration) (s : Setting) : Bool := (c.value s).truthy

/-- Whether a setting is a certain word. -/
def isWord (c : Configuration) (s : Setting) (word : String) : Bool :=
  match c.value s with
  | .string text => text = word
  | _ => false

/-- The member of a table that a setting names. -/
def lookUp {α : Type} (c : Configuration) (s : Setting) (table : String → Option α) :
    Except Failure α :=
  match c.value s with
  | .list _ => .error (.mistyped .other)
  | .object _ => .error (.mistyped .other)
  | .string name =>
    match table name with
    | some a => .ok a
    | none => .error (.absentKey name)
  | value => .error (.absentValue value.shown)

end Configuration
end FormulaEvolution
