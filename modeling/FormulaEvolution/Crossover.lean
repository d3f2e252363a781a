/-
# Crossover

Making a child of two parents: the first parent with one or more of its subtrees replaced by
subtrees of the second one.  A replacement is made only if the child stays within its budgets of
nodes and levels, and only at a place that the child has; the parents are left as they are.

* `Crossover.subtree` replaces one subtree, trying several donors until one fits;
* `Crossover.onePoint` replaces one subtree by one from the same level;
* `Crossover.uniform` visits every site, each after those below it, and may replace what is there.
-/
import FormulaEvolution.Primitive
import FormulaEvolution.Random.Source
import FormulaEvolution.Tree.Site

namespace FormulaEvolution

variable {σ : Type} [RandomSource σ]

/-! ## 1. Budgets -/

/-- Most nodes and most levels of a tree. -/
structure Budget where
  maxLength : Int
  maxDepth : Int
  deriving DecidableEq, Repr

/-- Whether a tree with `kept` nodes has room for `donor` at a level. -/
def Budget.admits (b : Budget) (kept : Int) (level : Nat) (donor : Tree) : Bool :=
  kept + donor.length ≤ b.maxLength && (level : Int) + donor.depth ≤ b.maxDepth

/-- A probability, cut off at zero and one; what is no number counts as zero. -/
def clampProbability (p : Float) : Float := lesser 1.0 (greater 0.0 p)

/-! ## 2. Crossovers -/

/-- A way to make a child of two parents. -/
inductive Crossover where
  | subtree (budget : Budget) (innerProbability : Float) (attempts : Int)
  | onePoint (budget : Budget)
  | uniform (budget : Budget) (swapProbability : Float)

namespace Crossover

/-- Where the first parent is cut: with some probability at a site that has subtrees below it, if
there is one, and else at any site. -/
def choosePoint (innerProbability : Float) (sites : List Site) : Draws σ Site := do
  let u ← Draws.unit
  let inner := sites.filter (·.isInner)
  if u < innerProbability && !inner.isEmpty then Draws.choose inner else Draws.choose sites

/-- Draw donors until one fits, at most `attempts` times. -/
def tryDonors (budget : Budget) (parent : Tree) (point : Site) (donors : List Tree) :
    Nat → Draws σ Tree
  | 0 => return parent
  | attempts + 1 => do
    let donor ← Draws.choose donors
    if budget.admits (parent.length - point.tree.length) point.level donor then
      Draws.ofExcept (Tree.put donor point.path parent)
    else tryDonors budget parent point donors attempts

/-- Replace one subtree of the first parent by one of the second. -/
def crossSubtree (budget : Budget) (innerProbability : Float) (attempts : Int)
    (parent0 parent1 : Tree) : Draws σ Tree := do
  let point ← choosePoint (clampProbability innerProbability) parent0.sites
  tryDonors budget parent0 point parent1.postorder (max 1 attempts).toNat

/-- Replace one subtree of the first parent by one of the second from the same level, which is
neither the root's nor below the lowest of the shallower parent. -/
def crossOnePoint (budget : Budget) (parent0 parent1 : Tree) : Draws σ Tree := do
  let common := min parent0.depth parent1.depth
  if common ≤ 1 then return parent0
  else do
    let level ← Draws.span 1 common
    let point ← Draws.choose (parent0.sitesAt level.toNat)
    let donor ← Draws.choose (parent1.sitesAt level.toNat)
    if budget.admits (parent0.length - point.tree.length) level.toNat donor.tree then
      Draws.ofExcept (Tree.put donor.tree point.path parent0)
    else return parent0

/-- Visit places one after the other.  A place is still there when its turn comes, since only
places below it have been visited before. -/
def swapAlong (budget : Budget) (swapProbability : Float) (donors : List Tree) :
    List Path → Tree → Draws σ Tree
  | [], child => return child
  | path :: paths, child => do
    let u ← Draws.unit
    if u < swapProbability then
      let donor ← Draws.choose donors
      let here := (child.at? path).elim 0 Tree.length
      if budget.admits (child.length - here) path.length donor then
        let child ← Draws.ofExcept (Tree.put donor path child)
        swapAlong budget swapProbability donors paths child
      else swapAlong budget swapProbability donors paths child
    else swapAlong budget swapProbability donors paths child

/-- Replace subtrees of the first parent all over the tree. -/
def crossUniform (budget : Budget) (swapProbability : Float) (parent0 parent1 : Tree) :
    Draws σ Tree :=
  swapAlong budget (clampProbability swapProbability) parent1.postorder
    (parent0.sites.map (·.path)) parent0

/-- Make a child of two parents that have roots. -/
def cross : Crossover → Tree → Tree → Draws σ Tree
  | .subtree budget p attempts, parent0, parent1 => crossSubtree budget p attempts parent0 parent1
  | .onePoint budget, parent0, parent1 => crossOnePoint budget parent0 parent1
  | .uniform budget p, parent0, parent1 => crossUniform budget p parent0 parent1

/-- Make a child of two parents, either of which may be empty, which is refused. -/
def crossover (c : Crossover) (parent0 parent1 : Option Tree) : Draws σ Tree :=
  match parent1, parent0 with
  | none, _ => throw (.invalid .rootlessParent)
  | some _, none => throw (.invalid .rootlessTree)
  | some t1, some t0 => c.cross t0 t1

/-! ## 3. Kinds -/

/-- Crossovers without their settings. -/
inductive Kind where
  | subtree
  | onePoint
  | uniform
  deriving DecidableEq, Repr

/-- All kinds, in order. -/
def Kind.all : List Kind := [.subtree, .onePoint, .uniform]

/-- The name of a kind. -/
def Kind.name : Kind → String
  | .subtree => "subtree"
  | .onePoint => "one_point"
  | .uniform => "uniform"

/-- The kind of a name. -/
def Kind.ofName? (name : String) : Option Kind := Kind.all.find? (·.name = name)

/-- The probability of cutting at a site with subtrees, unless another one is set. -/
def defaultInnerProbability : Float := 0.9

/-- The probability of a swap, unless another one is set. -/
def defaultSwapProbability : Float := 0.5

/-- How many donors are tried, unless set. -/
def defaultAttempts : Int := 10

/-- A crossover of a kind with the usual settings. -/
def ofKind (kind : Kind) (budget : Budget) : Crossover :=
  match kind with
  | .subtree => .subtree budget defaultInnerProbability defaultAttempts
  | .onePoint => .onePoint budget
  | .uniform => .uniform budget defaultSwapProbability

/-- The name under which a crossover is shown. -/
def describe : Crossover → String
  | .subtree .. => "SubtreeCrossover"
  | .onePoint _ => "OnePointCrossover"
  | .uniform .. => "UniformCrossover"

end Crossover

/-- The budget of operators, unless another one is set. -/
def Budget.usual : Budget := ⟨25, 10⟩

end FormulaEvolution
