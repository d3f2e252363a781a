/-
# Scoring

From predictions to a fitness.  Predictions that are not finite make a regression and a smooth
classification as bad as can be.
-/
import FormulaEvolution.Fitness.Prediction
import FormulaEvolution.Primitive

namespace FormulaEvolution
namespace Evaluator

/-! ## 1. From predictions -/

/-- The mean of the squared differences to the targets. -/
def meanSquaredError (targets ys : List Float) : Float :=
  mean (List.zipWith (fun y target => (y - target) * (y - target)) ys targets)

/-- The side of one half that a prediction is on, as one or zero. -/
def classOf (y : Float) : Float := indicator (y ≥ 0.5)

/-- The share of the targets that are met exactly. -/
def accuracy (targets classes : List Float) : Float :=
  mean (List.zipWith (fun c target => indicator (c == target)) classes targets)

/-- Where predictions are cut off before they are turned into chances. -/
def chanceClip : Float := 10.0

/-- The chance of a one that a finite prediction stands for. -/
def chance (y : Float) : Float := logistic (lesser (greater y (-chanceClip)) chanceClip)

/-- How much a chance leans to the side of a target. -/
def agreement (y target : Float) : Float := if target ≥ 0.5 then chance y else 1.0 - chance y

/-- The fitness that a mean squared error stands for. -/
def regressionScore (error : Float) : Float :=
  if Number.isFinite error then -error else -Number.infinity

/-- The fitness of predictions, in a smooth classification of a tree with so many nodes. -/
def smoothScore (targets : List Float) (pressure : Float) (length : Nat) (ys : List Float) :
    Float :=
  if ys.all Number.isFinite then
    mean (List.zipWith agreement ys targets) - pressure * length.toFloat
  else -Number.infinity

/-- The fitness of a tree by its predictions. -/
def scoreOf (e : Evaluator) (t : Option Tree) (ys : List Float) : Except Failure Float :=
  match e.goal with
  | .regression => .ok (regressionScore (meanSquaredError e.targets ys))
  | .classification => .ok (accuracy e.targets (ys.map classOf))
  | .smooth pressure => .ok (smoothScore e.targets pressure (treeLength t) ys)
  | .custom _ score => score t
  | .abstract => .error .unimplemented

/-! ## 2. Of trees -/

/-- Predict and go on with the predictions. -/
def afterPredicting {α : Type} (e : Evaluator) (t : Option Tree)
    (next : List Float → Except Failure α) : Renting (Except Failure α) := fun pool =>
  let (ys, pool) := e.predict t pool
  (ys >>= next, pool)

/-- The mean squared error of a tree. -/
def errorOf (e : Evaluator) (t : Option Tree) : Renting (Except Failure Float) :=
  e.afterPredicting t fun ys => .ok (meanSquaredError e.targets ys)

/-- The classes that a tree predicts. -/
def classify (e : Evaluator) (t : Option Tree) : Renting (Except Failure (List Float)) :=
  e.afterPredicting t fun ys => .ok (ys.map classOf)

/-- Score a tree.  Nothing is predicted for a custom score, and without a goal there is none. -/
def score (e : Evaluator) (t : Option Tree) : Renting (Except Failure Float) :=
  match e.goal with
  | .custom _ score => fun pool => (score t, pool)
  | .abstract => fun pool => (.error .unimplemented, pool)
  | _ => e.afterPredicting t (e.scoreOf t)

/-- The fitness of a tree, whatever pool is used. -/
def fitness (e : Evaluator) (t : Option Tree) : Except Failure Float := (e.score t .usual).1

/-! ## 3. Kinds -/

/-- The name under which an evaluator is shown. -/
def describe (e : Evaluator) : String :=
  match e.goal with
  | .regression => "RegressionFitnessEvaluator"
  | .classification => "ClassificationFitnessEvaluator"
  | .smooth _ => "SmoothClassificationFitnessEvaluator"
  | .custom name _ => name
  | .abstract => "FitnessEvaluator"

end Evaluator
end FormulaEvolution
