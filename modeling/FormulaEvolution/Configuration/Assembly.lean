/-
# From a configuration to an evolution

A checked configuration and a dataset make an evolution that is ready to run.
-/
import FormulaEvolution.Algorithm.Basic
import FormulaEvolution.Configuration.Parts
import FormulaEvolution.Random.Twister

namespace FormulaEvolution
namespace Configuration

/-- The fitness at which a run has converged, if there is one. -/
def target (c : Configuration) : Except Failure (Option Float) :=
  match c.value .targetFitness with
  | .null => .ok none
  | _ => do
    let x ← c.number .targetFitness
    return some x

/-- The limits. -/
def limits (c : Configuration) : Except Failure Limits := do
  return { populationSize := ← c.whole .populationSize
           maxGenerations := ← c.whole .maxGenerations
           maxLength := ← c.whole .maxTreeLength
           maxDepth := ← c.whole .maxTreeDepth
           crossoverProbability := ← c.number .crossoverProbability
           mutationProbability := ← c.number .mutationProbability
           eliteCount := ← c.whole .eliteCount
           target := ← c.target }

/-- The random source. -/
def source (c : Configuration) : Except Failure Twister := do
  return .ofSeed (← c.whole .randomSeed)

/-- The grammar of a run over a dataset: the given one, unless it is missing or has no symbols. -/
def grammarOver (c : Configuration) (d : Dataset) (given : Option Grammar) :
    Except Failure Grammar :=
  match given with
  | some g => if g.entries.isEmpty then c.grammar d.names else .ok g
  | none => c.grammar d.names

/-- The parts over a dataset, with a random source of any kind. -/
def partsWith {σ : Type} (c : Configuration) (d : Dataset) (given : Option Grammar)
    (source : Except Failure σ) : Except Failure (Parts σ) := do
  let grammar ← c.grammarOver d given
  let creator ← c.creator
  let crossover ← c.crossover
  let mutator ← c.mutator
  let tournamentSize ← c.whole .tournamentSize
  let source ← source
  let evaluator ← c.evaluator d
  return { grammar := some grammar, creator := some creator, crossover := some crossover,
           mutator := some mutator, tournamentSize := some tournamentSize, source := some source,
           evaluator := some evaluator }

/-- The evolution that a configuration describes, over a dataset, with a random source of any
kind. -/
def evolutionWith {σ : Type} (c : Configuration) (d : Dataset) (given : Option Grammar)
    (source : Except Failure σ) : Except Failure (Evolution σ) := do
  c.check
  let parts ← c.partsWith d given source
  return { parts, limits := ← c.limits }

/-- The evolution that a configuration describes, over a dataset. -/
def evolution (c : Configuration) (d : Dataset) : Except Failure (Evolution Twister) :=
  c.evolutionWith d none c.source

end Configuration
end FormulaEvolution
