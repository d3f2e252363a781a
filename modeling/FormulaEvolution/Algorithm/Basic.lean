/-
# Evolutions

An evolution is everything that a run reads and writes: the parts it works with, its limits, and
where it has got to.  Parts may be missing until a run needs them; `Evolution.ready` says which one
is missing first, or which limit is out of range.
-/
import FormulaEvolution.Creation
import FormulaEvolution.Fitness.Score
import FormulaEvolution.Mutation
import FormulaEvolution.Population

namespace FormulaEvolution

/-! ## 1. Parts and limits -/

/-- The parts of an evolution, as far as they have been set.  `σ` are the states of the random
source. -/
structure Parts (σ : Type) where
  grammar : Option Grammar := none
  creator : Option Creator := none
  crossover : Option Crossover := none
  mutator : Option Mutator := none
  tournamentSize : Option Int := none
  source : Option σ := none
  evaluator : Option Evaluator := none

/-- All parts but the random source. -/
structure Equipment where
  grammar : Grammar
  creator : Creator
  crossover : Crossover
  mutator : Mutator
  tournamentSize : Int
  evaluator : Evaluator

/-- A part that must be there. -/
def needPart {α : Type} (name : String) : Option α → Except Failure α
  | some a => .ok a
  | none => .error (.configuration (.missingComponent name))

/-- The parts, all of them; the first that is missing is named. -/
def Parts.complete {σ : Type} (p : Parts σ) : Except Failure (Equipment × σ) := do
  let grammar ← needPart "grammar" p.grammar
  let creator ← needPart "tree creator" p.creator
  let crossover ← needPart "crossover" p.crossover
  let mutator ← needPart "mutator" p.mutator
  let tournamentSize ← needPart "selector" p.tournamentSize
  let source ← needPart "random source" p.source
  let evaluator ← needPart "fitness evaluator" p.evaluator
  return ({ grammar, creator, crossover, mutator, tournamentSize, evaluator }, source)

/-- The limits of an evolution.  With `scoresTogether`, a failure to score one candidate leaves all
of them unscored. -/
structure Limits where
  populationSize : Int := 100
  maxGenerations : Int := 50
  maxLength : Int := 25
  maxDepth : Int := 10
  crossoverProbability : Float := 0.9
  mutationProbability : Float := 0.1
  eliteCount : Int := 0
  target : Option Float := none
  scoresTogether : Bool := false

/-- A probability is within zero and one. -/
def checkProbability (name : String) (p : Float) : Except Failure Unit :=
  if 0.0 <= p && p <= 1.0 then .ok ()
  else .error (.configuration (.probability name (Number.exactText p)))

/-- Refuse limits that cannot be kept. -/
def Limits.check (l : Limits) : Except Failure Unit := do
  if l.populationSize < 1 then throw (.configuration .smallPopulation)
  if l.maxGenerations < 0 then throw (.configuration .negativeGenerations)
  if l.maxLength < 1 ∨ l.maxDepth < 1 then throw (.configuration .smallBudgets)
  checkProbability "Crossover" l.crossoverProbability
  checkProbability "Mutation" l.mutationProbability
  if l.eliteCount < 0 ∨ l.populationSize < l.eliteCount then
    throw (.configuration (.eliteCount (toString l.populationSize) (toString l.eliteCount)))

/-! ## 2. Evolutions -/

/-- How far an evolution has got. -/
inductive Phase where
  | unconfigured
  | initialized
  | running
  | converged
  | stopped
  | exhausted
  deriving DecidableEq, Repr

/-- The name of a phase. -/
def Phase.name : Phase → String
  | .unconfigured => "unconfigured"
  | .initialized => "initialized"
  | .running => "running"
  | .converged => "converged"
  | .stopped => "stopped"
  | .exhausted => "max_generations_reached"

/-- An evolution.  Listeners are known by name and are told of every generation in order; one may be
there more than once. -/
structure Evolution (σ : Type) where
  parts : Parts σ := {}
  limits : Limits := {}
  phase : Phase := .unconfigured
  generation : Nat := 0
  population : Population := []
  best : Option Individual := none
  history : List (Option Float) := []
  stopRequested : Bool := false
  listeners : List String := []

/-- What listeners are told once a generation is complete. -/
structure GenerationEvent where
  generation : Int
  bestFitness : Option Float
  averageFitness : Option Float
  bestTree : Option (Option Tree)
  population : Option Population := none

namespace Evolution

variable {σ : Type}

/-- The fitness of the best candidate so far. -/
def bestFitness (e : Evolution σ) : Option Float := e.best.bind (·.fitness)

/-- Whether the best candidate so far is good enough. -/
def targetReached (e : Evolution σ) : Bool :=
  match e.limits.target, e.best with
  | some target, some best => fitnessKey best.fitness >= target
  | _, _ => false

/-- The parts of an evolution that can run; the first fault is named. -/
def ready (e : Evolution σ) : Except Failure (Equipment × σ) := do
  let parts ← e.parts.complete
  e.limits.check
  return parts

/-- Ask a run to halt before its next generation. -/
def requestStop (e : Evolution σ) : Evolution σ := { e with stopRequested := true }

/-- Add a listener. -/
def listen (e : Evolution σ) (name : String) : Evolution σ :=
  { e with listeners := e.listeners ++ [name] }

/-- Take a listener out, the first of that name. -/
def unlisten (e : Evolution σ) (name : String) : Except Failure (Evolution σ) :=
  if name ∈ e.listeners then .ok { e with listeners := e.listeners.erase name }
  else .error (.invalid .notListening)

/-- The same evolution with another random source. -/
def withSource (e : Evolution σ) (source : Option σ) : Evolution σ :=
  { e with parts := { e.parts with source } }

/-- Enable or disable a symbol of the grammar. -/
def setEnabled (e : Evolution σ) (name : String) (enabled : Bool) : Except Failure (Evolution σ) :=
  match e.parts.grammar with
  | none => .error .noSuchMember
  | some g => do
    let g ← g.setEnabled name enabled
    return { e with parts := { e.parts with grammar := some g } }

/-- What listeners are told about the generation that has just been completed. -/
def event (e : Evolution σ) : GenerationEvent where
  generation := e.generation
  bestFitness := e.bestFitness
  averageFitness := some e.population.averageFitness
  bestTree := e.best.map (·.tree)
  population := some e.population

end Evolution
end FormulaEvolution
