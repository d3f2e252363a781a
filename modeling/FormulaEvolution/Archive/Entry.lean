/-
# Entries of a log

What is kept of a generation: when it was complete, how good it was, and its best expression.  A
generation that comes with its population also has a census of it.

Of the fitness values only finite ones are kept; others are left blank.
-/
import FormulaEvolution.Algorithm.Basic
import FormulaEvolution.Json.Writer
import FormulaEvolution.Moment

namespace FormulaEvolution

/-- The summaries of a population and how different its trees are. -/
structure Census where
  stats : Option PopulationStats
  diversity : Diversity

/-- The census of a population. -/
def Census.of (p : Population) : Census := ⟨p.stats?, p.diversity⟩

/-- What is kept of a generation. -/
structure LogEntry where
  generation : Int
  timestamp : Float
  moment : String
  best : Option Float
  average : Option Float
  expression : String
  length : Nat
  treeFile : Option String
  census : Option Census

namespace LogEntry

/-! ## 1. Making entries -/

/-- A number, unless it is not finite. -/
def finite? (x : Option Float) : Option Float := x.filter Number.isFinite

/-- The entry of an event. -/
def ofEvent (event : GenerationEvent) (timestamp : Float) (moment : String)
    (treeFile : Option String) : LogEntry where
  generation := event.generation
  timestamp := timestamp
  moment := moment
  best := finite? event.bestFitness
  average := finite? event.averageFitness
  expression := (event.bestTree.map treeText).getD "None"
  length := (event.bestTree.map treeLength).getD 0
  treeFile := treeFile
  census := event.population.map Census.of

/-! ## 2. Documents -/

/-- An entry as a document. -/
def toJson (e : LogEntry) : Json :=
  .object ([("generation", .int e.generation), ("timestamp", .float e.timestamp),
    ("datetime", .string e.moment), ("best_fitness", .ofNumber e.best),
    ("average_fitness", .ofNumber e.average), ("best_expression", .string e.expression),
    ("best_length", .int e.length),
    ("best_tree_file", (e.treeFile.map Json.string).getD .null)] ++
    match e.census with
    | none => []
    | some census => [("stats", PopulationStats.document census.stats),
        ("population_diversity", census.diversity.document)])

/-- A log as the text of a document. -/
def writeAll (log : List LogEntry) : String := (Json.list (log.map toJson)).write

/-! ## 3. Facts -/

/-- What is kept of a number is finite. -/
theorem isFinite_of_finite? {x : Option Float} {y : Float} (h : finite? x = some y) :
    Number.isFinite y = true := by
  unfold finite? at h
  exact (Option.filter_eq_some_iff.mp h).2

end LogEntry
end FormulaEvolution
