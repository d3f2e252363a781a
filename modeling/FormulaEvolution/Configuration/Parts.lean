/-
# The parts of a run

What a configuration makes: a grammar, a crossover, a mutator and an evaluator.  Each part comes in
two forms: the part itself, for which the settings it uses must have the right types, and a
description, which shows the settings as they are.
-/
import FormulaEvolution.Configuration.Check
import FormulaEvolution.Fitness.Score

namespace FormulaEvolution
namespace Configuration

/-! ## 1. The grammar -/

/-- The grammar over the symbol sets that are switched on. -/
def grammar (c : Configuration) (columns : List String) : Except Failure Grammar :=
  if c.symbolSets.isEmpty then .error (.configuration .noSymbolSet)
  else
    Grammar.forRegression columns
      ((c.symbolSets.flatMap SymbolSet.symbols).map fun s => { symbol := s }) (c.isOn .constants)

/-! ## 2. Crossover and creation -/

/-- The budget of a tree. -/
def budget (c : Configuration) : Except Failure Budget := do
  let maxLength ← c.whole .maxTreeLength
  let maxDepth ← c.whole .maxTreeDepth
  return ⟨maxLength, maxDepth⟩

theorem budget_eq {c : Configuration} {maxLength maxDepth : Int}
    (hlength : c.whole .maxTreeLength = .ok maxLength)
    (hdepth : c.whole .maxTreeDepth = .ok maxDepth) : c.budget = .ok ⟨maxLength, maxDepth⟩ := by
  simp only [budget, hlength, hdepth]
  rfl

/-- The creator that is named. -/
def creator (c : Configuration) : Except Failure Creator := c.lookUp .creationMethod Creator.ofName?

/-- The kind of the crossover that is named. -/
def crossoverKind (c : Configuration) : Except Failure Crossover.Kind :=
  c.lookUp .crossoverType Crossover.Kind.ofName?

/-- The crossover. -/
def crossover (c : Configuration) : Except Failure Crossover := do
  let kind ← c.crossoverKind
  return .ofKind kind (← c.budget)

/-- The crossover, described. -/
def crossoverDocument (c : Configuration) : Except Failure Json := do
  let kind ← c.crossoverKind
  let shape := Crossover.ofKind kind Budget.usual
  return .object ([("type", .string shape.describe), ("max_length", c.value .maxTreeLength),
    ("max_depth", c.value .maxTreeDepth)] ++
    match shape with
    | .subtree _ p _ => [("internal_node_probability", .float (clampProbability p))]
    | .onePoint _ => []
    | .uniform _ p => [("swap_probability", .float (clampProbability p))])

/-! ## 3. Mutation -/

/-- The kinds of the mutators that are named: all of them for the combined one. -/
def mutatorKinds (c : Configuration) : Except Failure (List Mutator.Kind) :=
  if c.isWord .mutationType combinedName then .ok Mutator.Kind.all
  else do
    let kind ← c.lookUp .mutationType Mutator.Kind.ofName?
    return [kind]

/-- The mutator of a kind.  Only those that create trees have a use for a creator and a budget. -/
def mutatorOf (c : Configuration) (kind : Mutator.Kind) : Except Failure Mutator := do
  if kind = .subtree ∨ kind = .nodeInsertion then
    let creator ← c.creator
    return .ofKind kind (← c.budget) creator
  else return .ofKind kind Budget.usual .grow

/-- The mutator. -/
def mutator (c : Configuration) : Except Failure Mutator := do
  let kinds ← c.mutatorKinds
  let members ← kinds.mapM c.mutatorOf
  match c.isWord .mutationType combinedName, members with
  | false, [m] => return m
  | _, members => Mutator.combine members

/-- A bound of at least one, as it is shown. -/
def atLeastOne (value : Json) : Except Failure Json :=
  match shape? value with
  | some x => .ok (if (Number.Shape.ofWhole 1).less x then value else .int 1)
  | none => .error (.mistyped .other)

/-- The mutator of a kind, described. -/
def mutatorDocumentOf (c : Configuration) (kind : Mutator.Kind) : Except Failure Json := do
  match Mutator.ofKind kind Budget.usual .grow with
  | .changeNodeType attempts =>
    return .object [("type", .string (Mutator.changeNodeType attempts).describe),
      ("max_attempts", .int (max 1 attempts))]
  | .changeTerminal range =>
    return .object [("type", .string (Mutator.changeTerminal range).describe),
      ("constant_range", .float (Mutator.clampRange range))]
  | .nodeRemoval => return .object [("type", .string Mutator.nodeRemoval.describe)]
  | m => do
    let creator ← c.creator
    let maxLength ← atLeastOne (c.value .maxTreeLength)
    let maxDepth ← atLeastOne (c.value .maxTreeDepth)
    return .object [("type", .string m.describe), ("max_length", maxLength),
      ("max_depth", maxDepth), ("creator", .string creator.describe)]

/-- The mutator, described. -/
def mutatorDocument (c : Configuration) : Except Failure Json := do
  let kinds ← c.mutatorKinds
  let members ← kinds.mapM c.mutatorDocumentOf
  match c.isWord .mutationType combinedName, members with
  | false, [m] => return m
  | _, members =>
    return .object [("type", .string (Mutator.combined []).describe), ("mutators", .list members)]

/-! ## 4. Scoring -/

/-- The whole number towards zero from a double, which must be finite. -/
def towardsZero (x : Float) : Except Failure Int :=
  match Number.decode x with
  | .nan => .error (.invalid (.other "cannot convert float NaN to integer"))
  | .infinite _ => .error .boundless
  | .finite .. => .ok (Number.towardsZero x)

/-- The number of rows from which on predictions are made in chunks. -/
def threshold (c : Configuration) : Except Failure Nat := do
  let n ← match c.value .parallelThreshold with
    | .float x => towardsZero x
    | .string s =>
      match Number.wholeOfText? s with
      | some n => .ok n
      | none => .error (.invalid (.notAWholeNumber s))
    | _ => c.whole .parallelThreshold
  return Evaluator.thresholdOf n

/-- How the evaluator works. -/
def evaluatorSettings (c : Configuration) : Except Failure EvaluatorSettings := do
  return { compiled := c.isOn .compilation, parallel := c.isOn .parallelEvaluation,
           threshold := ← c.threshold }

/-- What predictions are judged by. -/
def goal (c : Configuration) : Except Failure Goal :=
  if c.isWord .problemType "regression" then .ok .regression
  else if c.isWord .fitnessType "smooth" then do
    return .smooth (← c.number .parsimonyPressure)
  else .ok .classification

/-- The evaluator over a dataset. -/
def evaluator (c : Configuration) (d : Dataset) : Except Failure Evaluator := do
  let goal ← c.goal
  Evaluator.ofDataset goal (← c.evaluatorSettings) d

/-- The evaluator, described. -/
def evaluatorDocument (c : Configuration) (d : Dataset) : Except Failure Json := do
  let e ← c.evaluator d
  return .object [("type", .string e.describe), ("use_compilation", c.value .compilation),
    ("parallel", c.value .parallelEvaluation), ("threshold", .int e.settings.threshold),
    ("parsimony", match e.goal with
      | .smooth pressure => .float pressure
      | _ => .null)]

end Configuration
end FormulaEvolution
