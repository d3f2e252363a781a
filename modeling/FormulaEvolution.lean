import FormulaEvolution.Arena.Session
import FormulaEvolution.Copying
import FormulaEvolution.Main
import FormulaEvolution.Overview
import FormulaEvolution.Proofs.Code.Agreement
import FormulaEvolution.Proofs.Evolution.Budget
import FormulaEvolution.Proofs.Fitness.Prediction
import FormulaEvolution.Proofs.Json.Leaves
import FormulaEvolution.Proofs.Json.RoundTrip
import FormulaEvolution.Proofs.Tree.Document
import FormulaEvolution.Proofs.Evolution.Boundaries
import FormulaEvolution.Proofs.Number.Comparison
import FormulaEvolution.Proofs.Evolution.Elite
import FormulaEvolution.Proofs.Fitness.Totality
import FormulaEvolution.Proofs.Symbol.Regression
import FormulaEvolution.Proofs.Configuration.Check
import FormulaEvolution.Proofs.Evolution.Completion
import FormulaEvolution.Proofs.Configuration.Runs
import FormulaEvolution.Proofs.Fitness.Leniency
import FormulaEvolution.Proofs.Copying
import FormulaEvolution.Proofs.Arena.Session
import FormulaEvolution.Proofs.Command.Evaluate
import FormulaEvolution.Proofs.Operators.Fullness
import FormulaEvolution.Proofs.Evolution.Stopping
import FormulaEvolution.Proofs.Evolution.Repetition
import FormulaEvolution.Proofs.Operators.Levels
import FormulaEvolution.Proofs.Operators.Insertion
import FormulaEvolution.Proofs.Operators.Renewal
import FormulaEvolution.Proofs.Operators.Removal
import FormulaEvolution.Proofs.Operators.Alteration
import FormulaEvolution.Proofs.Evolution.Mishap
import FormulaEvolution.Proofs.Arena.Bounds
import FormulaEvolution.Proofs.Arena.Apart
import FormulaEvolution.Proofs.Arena.Traversal
import FormulaEvolution.Proofs.Arena.Placing
import FormulaEvolution.Proofs.Code.Naming
import FormulaEvolution.Proofs.Code.Source
import FormulaEvolution.Proofs.Code.Failures
import FormulaEvolution.Proofs.Fitness.Compiling
import FormulaEvolution.Proofs.Selection.Tournament
import FormulaEvolution.Proofs.Selection.Wheel
import FormulaEvolution.Proofs.Copying.Agreement
import FormulaEvolution.Proofs.Copying.Refusal
import FormulaEvolution.Proofs.ScratchPool
import FormulaEvolution.Proofs.Dataset.Split
import FormulaEvolution.Proofs.Dataset.Separated
import FormulaEvolution.Proofs.Tree.Text
import FormulaEvolution.Proofs.Archive.Report
import FormulaEvolution.Proofs.Archive.Finite
import FormulaEvolution.Proofs.Archive.Runs
