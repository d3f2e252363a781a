/-
# Generations

How a generation is made: the first one is created, and every other one is bred from the one before
it.  Either is scored as a whole before it takes its place.

A failure on the way leaves the generation before in its place; what has been drawn stays drawn.
Only the first generation is put in place before it is scored.
-/
import FormulaEvolution.Algorithm.Basic
import FormulaEvolution.Selection

namespace FormulaEvolution

variable {σ : Type} [RandomSource σ]

/-! ## 1. Scoring -/

/-- Score candidates in order.  Those from the first failure on stay as they are. -/
def scoreInOrder (e : Evaluator) : List Individual → List Individual × Except Failure Unit
  | [] => ([], .ok ())
  | x :: xs =>
    match e.fitness x.tree with
    | .error failure => (x :: xs, .error failure)
    | .ok fitness =>
      let (ys, result) := scoreInOrder e xs
      ({ x with fitness := some fitness } :: ys, result)

/-- Score candidates, in order or all together. -/
def scoreAll (e : Evaluator) (together : Bool) (xs : List Individual) :
    List Individual × Except Failure Unit :=
  match scoreInOrder e xs with
  | (ys, .ok ()) => (ys, .ok ())
  | (ys, .error failure) => (if together && 1 < xs.length then xs else ys, .error failure)

/-! ## 2. Creating and breeding -/

/-- Do the same draws a number of times. -/
def drawMany {α : Type} (draws : Draws σ α) : Nat → Draws σ (List α)
  | 0 => return []
  | n + 1 => do
    let a ← draws
    let rest ← drawMany draws n
    return a :: rest

/-- A candidate of the first generation. -/
def createOne (q : Equipment) (l : Limits) : Draws σ Individual := do
  let t ← q.creator.createTree q.grammar l.maxLength l.maxDepth
  return { tree := some t }

/-- A tree for the next generation: the child of two parents, or the first of them, which may then
be changed. -/
def breed (q : Equipment) (l : Limits) (p : Population) : Draws σ (Option Tree) := do
  let parent0 ← tournament q.tournamentSize (fun i => .ok i.fitness) p
  let parent1 ← tournament q.tournamentSize (fun i => .ok i.fitness) p
  let u ← Draws.unit
  let child ← if u < l.crossoverProbability then do
      let t ← q.crossover.crossover parent0.tree parent1.tree
      pure (some t)
    else pure parent0.tree
  let v ← Draws.unit
  if v < l.mutationProbability then do
    let t ← q.mutator.mutate (some q.grammar) child
    return some t
  else return child

/-- A candidate of the next generation, not yet scored. -/
def breedOne (q : Equipment) (l : Limits) (p : Population) : Draws σ Individual := do
  let tree ← breed q l p
  return { tree }

namespace Evolution

/-! ## 3. Taking over -/

/-- Keep the best of the population if it beats the best so far, and note how good the best is
now. -/
def noteBest (e : Evolution σ) : Evolution σ :=
  let best := match e.population.best 1, e.best with
    | [], best => best
    | candidate :: _, none => some candidate
    | candidate :: _, some best =>
      some (if beats candidate.fitness best.fitness then candidate else best)
  { e with best, history := e.history ++ [best.bind (·.fitness)] }

/-- Put a generation in the place of the one before. -/
def install (e : Evolution σ) (p : Population) : Evolution σ :=
  let e := ({ e with population := p }).noteBest
  { e with generation := e.generation + 1 }

/-! ## 4. The first generation -/

/-- Forget everything about earlier runs but the population. -/
def restart (e : Evolution σ) : Evolution σ := { e with generation := 0, best := none, history := [] }

/-- Create and score the first generation. -/
def start (e : Evolution σ) : Except Failure Unit × Evolution σ :=
  match e.ready with
  | .error failure => (.error failure, e)
  | .ok (q, source) =>
    let e := e.restart
    let (created, source) := (drawMany (createOne q e.limits) e.limits.populationSize.toNat).runFrom
      source
    let e := e.withSource (some source)
    match created with
    | .error failure => (.error failure, e)
    | .ok individuals =>
      let (population, scored) := scoreAll q.evaluator e.limits.scoresTogether individuals
      let e := { e with population }
      match scored with
      | .error failure => (.error failure, e)
      | .ok () => (.ok (), { e.noteBest with phase := .initialized })

/-! ## 5. The next generation -/

/-- Why nothing can be bred when a part is missing. -/
def breedingRefusal (e : Evolution σ) : Failure :=
  if e.parts.tournamentSize.isNone then .noSuchMember
  else if e.population.isEmpty then .invalid .emptyPopulation
  else if e.parts.source.isNone then .invalid .noSource
  else .noSuchMember

/-- Breed and score `count` candidates.  The population may be empty only if there are none to
breed. -/
def offspring (e : Evolution σ) (count : Nat) : Except Failure (List Individual) × Option σ :=
  match count, e.parts.complete with
  | 0, _ => (.ok [], e.parts.source)
  | _ + 1, .error _ => (.error e.breedingRefusal, e.parts.source)
  | n + 1, .ok (q, source) =>
    let (bred, source) := (drawMany (breedOne q e.limits e.population) (n + 1)).runFrom source
    let scored := bred >>= fun individuals =>
      match scoreAll q.evaluator e.limits.scoresTogether individuals with
      | (individuals, .ok ()) => .ok individuals
      | (_, .error failure) => .error failure
    (scored, some source)

/-- The best candidates, which are carried over as they are. -/
def elite (e : Evolution σ) : List Individual := e.population.best e.limits.eliteCount

/-- How many candidates are bred for the next generation. -/
def offspringCount (e : Evolution σ) : Nat := (e.limits.populationSize - e.elite.length).toNat

/-- Breed the next generation, score it and put it in place. -/
def advance (e : Evolution σ) : Except Failure Unit × Evolution σ :=
  let (bred, source) := e.offspring e.offspringCount
  let next := e.withSource source
  match bred with
  | .error failure => (.error failure, next)
  | .ok individuals => (.ok (), next.install (e.elite ++ individuals))

end Evolution
end FormulaEvolution
