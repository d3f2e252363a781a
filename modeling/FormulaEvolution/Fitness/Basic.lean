/-
# Evaluators

An evaluator scores trees over the rows of a dataset: it predicts a number for each row and compares
the numbers with the targets.  Higher is better.

* Regression: the mean squared error, negated.
* Classification: the share of rows on whose side of one half the prediction is.
* Smooth classification: how far, on average, the predictions lean to the right side, less a
  penalty for each node.
* Any other score of trees, without predictions.
-/
import FormulaEvolution.Dataset.Basic
import FormulaEvolution.Tree.Basic
import FormulaEvolution.Value

namespace FormulaEvolution

/-- What an evaluator compares predictions with targets by. -/
inductive Goal where
  | regression
  | classification
  | smooth (pressure : Float)
  | custom (name : String) (score : Option Tree → Except Failure Float)
  | abstract

/-- How an evaluator works.  None of it but `lenient` matters for what it predicts. -/
structure EvaluatorSettings where
  compiled : Bool := true
  parallel : Bool := true
  threshold : Nat := 100
  lenient : Bool := false
  workers : Nat := 1

/-- An evaluator: data, a goal and settings.  There is a row at least, each row has an entry for
each name, and each has a target. -/
structure Evaluator where
  names : List String
  rows : List (List Float)
  targets : List Float
  goal : Goal
  settings : EvaluatorSettings
  width : ∀ row ∈ rows, row.length = names.length
  count : rows.length = targets.length
  inhabited : rows ≠ []

namespace Evaluator

/-- The threshold that a setting means: one at least. -/
def thresholdOf (setting : Int) : Nat := (max 1 setting).toNat

/-- Make an evaluator of rows. -/
def ofRows (goal : Goal) (settings : EvaluatorSettings) (names : List String)
    (rows : List (List Float)) (targets : List Float) : Except Failure Evaluator :=
  if inhabited : rows = [] then .error (.shape .noRows)
  else if h : rows.all (·.length = names.length) ∧ rows.length = targets.length then
    .ok { names, rows, targets, goal, settings, count := h.2, inhabited,
          width := by simpa [List.all_eq_true] using h.1 }
  else .error (.shape (.rowCounts rows.length targets.length))

/-- Make an evaluator of grids. -/
def ofGrids (goal : Goal) (settings : EvaluatorSettings) (inputs targets : Grid)
    (names : List String) : Except Failure Evaluator :=
  let inputs := inputs.upright
  match inputs.shape, targets.shape with
  | [rows, columns], [count] => do
    if rows ≠ count then throw (.shape (.rowCounts rows count))
    if rows = 0 then throw (.shape .noRows)
    if columns ≠ names.length then throw (.shape (.columnCount columns names.length))
    ofRows goal settings names (Grid.cut columns rows inputs.entries) targets.entries
  | [_, _], other => throw (.shape (.targetsShape (Grid.shapeText other)))
  | shape, _ => throw (.shape (.inputsShape (Grid.shapeText shape)))

/-- Make an evaluator over a dataset, which must have a row. -/
def ofDataset (goal : Goal) (settings : EvaluatorSettings) (d : Dataset) :
    Except Failure Evaluator :=
  if inhabited : d.rows = [] then .error (.shape .noRows)
  else .ok { names := d.names, rows := d.rows, targets := d.targets, goal, settings,
             width := d.width, count := d.count, inhabited }

/-- The number of rows. -/
def size (e : Evaluator) : Nat := e.rows.length

/-- Whether predictions are made in chunks. -/
def isChunked (e : Evaluator) : Bool := e.settings.parallel && e.settings.threshold ≤ e.size

/-- The size of a chunk: the rows shared over the workers, and a row at least. -/
def chunkSize (e : Evaluator) : Nat :=
  let workers := max 1 e.settings.workers
  max 1 ((e.size + workers - 1) / workers)

/-- The column of an index over some rows. -/
def columnOf (rows : List (List Float)) (i : Nat) : List Float :=
  rows.map (·.getD i Number.notANumber)

/-- The columns of some rows, as values. -/
def columnsOf (e : Evaluator) (rows : List (List Float)) : List Value :=
  (List.range e.names.length).map fun i => .column (columnOf rows i)

/-- There is a row. -/
theorem size_pos (e : Evaluator) : 0 < e.size := List.length_pos_iff.mpr e.inhabited

theorem chunkSize_pos (e : Evaluator) : 0 < e.chunkSize := Nat.le_max_left 1 _

end Evaluator
end FormulaEvolution
