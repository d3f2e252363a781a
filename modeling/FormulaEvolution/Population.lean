/-
# Populations

Candidates in order: each is a tree and its fitness, if it has been scored.  The order is kept by
everything that looks at a population, so that equals are told apart by who comes first.

The summaries look at the finite values only, and tell that there are none by having no numbers.
-/
import FormulaEvolution.Primitive
import FormulaEvolution.Score
import FormulaEvolution.Tree.Basic

namespace FormulaEvolution

/-- A candidate: a tree and its fitness. -/
structure Individual where
  tree : Option Tree
  fitness : Option Float := none

/-- Candidates in order. -/
abbrev Population := List Individual

/-- How a candidate is shown. -/
def Individual.describe (i : Individual) : String :=
  "Individual(fitness=" ++ (i.fitness.map Number.exactText).getD "None" ++ ", tree=" ++
    treeText i.tree ++ ")"

/-- The smallest and largest of some numbers, their mean and their standard deviation. -/
structure Summary where
  least : Float
  greatest : Float
  mean : Float
  deviation : Float

/-- The summary of some numbers, if there are any. -/
def Summary.of? : List Float → Option Summary
  | [] => none
  | x :: xs => some {
      least := xs.foldl lesser x
      greatest := xs.foldl greater x
      mean := FormulaEvolution.mean (x :: xs)
      deviation := (variance (x :: xs)).sqrt }

/-- The summaries of a population that is not empty. -/
structure PopulationStats where
  size : Nat
  fitness : Option Summary
  length : Option Summary
  depth : Option Summary

/-- How many different trees there are among the candidates, and their share. -/
structure Diversity where
  share : Float
  distinct : Nat

/-- The first `n` members; a negative `n` leaves so many out at the end. -/
def takeFront {α : Type} (n : Int) (xs : List α) : List α :=
  if n < 0 then xs.take (xs.length - n.natAbs) else xs.take n.toNat

namespace Population

/-- The best `n` candidates, the best first. -/
def best (p : Population) (n : Int) : List Individual := takeFront n (sortByFitness (·.fitness) p)

/-- All fitness values. -/
def fitnesses (p : Population) : List Float := p.filterMap (·.fitness)

/-- The finite fitness values. -/
def finiteFitnesses (p : Population) : List Float := (fitnesses p).filter Number.isFinite

/-- The mean of the finite fitness values. -/
def averageFitness (p : Population) : Float :=
  match finiteFitnesses p with
  | [] => Number.notANumber
  | xs => mean xs

/-- The summaries of a population; an empty one has none. -/
def stats? (p : Population) : Option PopulationStats :=
  if p.isEmpty then none
  else some {
    size := p.length
    fitness := Summary.of? (finiteFitnesses p)
    length := Summary.of? (p.map fun i => (treeLength i.tree).toFloat)
    depth := Summary.of? (p.map fun i => (treeDepth i.tree).toFloat) }

/-- How different the trees are.  A population of one candidate or none counts as uniform. -/
def diversity (p : Population) : Diversity :=
  if p.length < 2 then ⟨0.0, p.length⟩
  else
    let distinct := ((p.map fun i => treeText i.tree).eraseDups).length
    ⟨distinct.toFloat / p.length.toFloat, distinct⟩

/-- The candidate at an index; negative ones count from the end. -/
def at? (p : Population) (index : Int) : Option Individual :=
  let place := if index < 0 then p.length + index else index
  if place < 0 then none else p[place.toNat]?

end Population

/-! ## Documents -/

/-- A number, or null. -/
def Json.ofNumber : Option Float → Json
  | some x => .float x
  | none => .null

/-- A summary as a document; the numbers of a missing one are null. -/
def Summary.document (s : Option Summary) : Json :=
  .object [("min", .ofNumber (s.map (·.least))), ("max", .ofNumber (s.map (·.greatest))),
    ("mean", .ofNumber (s.map (·.mean))), ("std", .ofNumber (s.map (·.deviation)))]

/-- The summaries of a population as a document; without summaries it is empty. -/
def PopulationStats.document : Option PopulationStats → Json
  | none => .object []
  | some s => .object [("population_size", .int s.size), ("fitness", Summary.document s.fitness),
      ("length", Summary.document s.length), ("depth", Summary.document s.depth)]

/-- How different the trees are, as a document. -/
def Diversity.document (d : Diversity) : Json :=
  .object [("structural_diversity", .float d.share), ("unique_structures", .int d.distinct)]

end FormulaEvolution
