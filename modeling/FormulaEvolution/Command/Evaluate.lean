/-
# The command that evaluates

Score a saved tree against a table.  All symbol sets are switched on, so that the tree may come from
any run.
-/
import FormulaEvolution.Command.Arguments
import FormulaEvolution.Command.Desk
import FormulaEvolution.Configuration.Parts
import FormulaEvolution.Dataset.Separated

namespace FormulaEvolution
namespace Evaluate

/-- All flags. -/
def flags : List Flag :=
  [⟨"--problem-type", "problem-type", .takesValue⟩, ⟨"--verbose", "verbose", .stands true⟩,
   ⟨"-v", "verbose", .stands true⟩, ⟨"--help", "help", .stands true⟩]

/-- What is asked for. -/
structure Request where
  tree : String
  table : String
  problem : String

/-- The kinds of problems. -/
def problems : List String := ["regression", "classification"]

/-- The request of a line, if it makes sense among these files. -/
def request? (l : Line) (f : Files) : Option Request := do
  let problem ← l.valueOr "problem-type" (fun p => if p ∈ problems then some p else none)
    "regression"
  match l.words with
  | [tree, table] =>
    if f.hasFile tree && f.hasFile table then some { tree, table, problem } else none
  | _ => none

/-- A configuration with all symbol sets for a kind of problem. -/
def configuration (problem : String) : Configuration :=
  Configuration.usual.setAll ((.problemType, .string problem) ::
    Configuration.toggles.map fun (s, _) => (s, .bool true))

/-- Evaluate. -/
def work (q : Request) : Work Unit := do
  let text ← Work.read q.table
  let d ← Work.ofExcept (Dataset.ofText q.table text (-1) ",")
  let c := configuration q.problem
  let g ← Work.ofExcept (c.grammar d.names)
  let saved ← Work.read q.tree
  let t ← Work.ofExcept (treeOfJson g saved)
  let evaluator ← Work.ofExcept (c.evaluator d)
  let fitness ← Work.ofExcept (evaluator.fitness t)
  Work.say ("Expression: " ++ treeText t)
  Work.say ("Length: " ++ toString (treeLength t) ++ ", Depth: " ++ toString (treeDepth t))
  Work.say ("Fitness (" ++ q.problem ++ "): " ++ Number.briefText fitness)

end Evaluate
end FormulaEvolution
