/-
# Mutation

Changing one tree at random: a fresh subtree, another function, another constant or variable, a
node more, or a node less.  The changed tree is a new one.

Budgets bound the trees that a mutation makes, not those it is given: a tree that is over budget
never grows.
-/
import FormulaEvolution.Creation
import FormulaEvolution.Crossover

namespace FormulaEvolution

variable {σ : Type} [RandomSource σ]

/-- A way to change a tree. -/
inductive Mutator where
  | subtree (budget : Budget) (creator : Creator)
  | changeNodeType (attempts : Int)
  | changeTerminal (range : Float)
  | nodeInsertion (budget : Budget) (creator : Creator)
  | nodeRemoval
  | combined (members : List Mutator)
  | abstract

namespace Mutator

/-! ## 1. Settings -/

/-- A budget of at least one node and one level. -/
def atLeastOne (b : Budget) : Budget := ⟨max 1 b.maxLength, max 1 b.maxDepth⟩

/-- How far a constant moves at most; what is below zero or no number counts as zero. -/
def clampRange (range : Float) : Float := greater 0.0 range

/-! ## 2. Mutations -/

/-- Replace the subtree at a random site by a fresh one. -/
def replaceSubtree (budget : Budget) (creator : Creator) (g : Grammar) (t : Tree) :
    Draws σ Tree := do
  let point ← Draws.choose t.sites
  let length := max 1 (budget.maxLength - (t.length - point.tree.length : Int))
  let depth := max 1 (budget.maxDepth - point.level)
  let fresh ← creator.createTree g length depth
  Draws.ofExcept (Tree.put fresh point.path t)

/-- Other functions that can take over the children of a node. -/
def alternatives (g : Grammar) (t : Tree) : List Symbol :=
  g.functions.filter fun s => s.name ≠ t.symbol.name && s.accepts t.children.length

/-- Draw candidates, each at most once, until one has an alternative. -/
def tryNodes (g : Grammar) (t : Tree) : Nat → List Site → Draws σ Tree
  | 0, _ => return t
  | attempts + 1, candidates => do
    let i ← Draws.int candidates.length
    match candidates[i]? with
    | none => throw (.range .list)
    | some site =>
      let others := alternatives g site.tree
      if others.isEmpty then tryNodes g t attempts (candidates.eraseIdx i)
      else do
        let s ← Draws.choose others
        let changed ← Draws.ofExcept (site.tree.rebind s)
        return Tree.replace changed site.path t

/-- Give a node that has children another function. -/
def changeFunction (attempts : Int) (g : Grammar) (t : Tree) : Draws σ Tree :=
  let candidates := t.sites.filter (·.isInner)
  tryNodes g t (min (max 1 attempts).toNat candidates.length) candidates

/-- Move a constant or point a variable at another input. -/
def changeLeaf (range : Float) (g? : Option Grammar) (t : Tree) : Draws σ Tree := do
  let site ← Draws.choose (t.sites.filter (!·.isInner))
  match site.tree with
  | .constant s value => do
    let delta ← Draws.uniform (-range) range
    return Tree.replace (.constant s (value + delta)) site.path t
  | .variable s =>
    match g? with
    | none => throw (.configuration (.needsGrammar "ChangeTerminalMutator"))
    | some g =>
      let others := g.variableSymbols.filter (·.name ≠ s.name)
      if others.isEmpty then return t
      else do
        let other ← Draws.choose others
        let changed ← Draws.ofExcept (site.tree.rebind other)
        return Tree.replace changed site.path t
  | .node .. => return t

/-- How many children a new node gets above an old one. -/
def insertedArity (s : Symbol) (spare : Nat) : Draws σ Nat :=
  let lower := max 1 s.least
  let upper := min s.most (min createdArityLimit (spare + 1))
  if upper ≤ lower then return lower
  else do
    let arity ← Draws.span lower (upper + 1 : Nat)
    return arity.toNat

/-- Put a new node above a random site, with the old subtree as its first child. -/
def insertNode (budget : Budget) (creator : Creator) (g : Grammar) (t : Tree) : Draws σ Tree := do
  let target ← Draws.choose t.sites
  let childDepth := budget.maxDepth - target.level - 1
  let spare := budget.maxLength - t.length - 1
  if spare < 0 || childDepth < target.tree.depth then return t
  else
    let candidates := g.functions.filter fun s => (s.least : Int) - 1 ≤ spare
    if candidates.isEmpty then return t
    else do
      let s ← Draws.choose candidates
      let arity ← insertedArity s spare.toNat
      Draws.ofExcept (Tree.roomFor s 0)
      let siblings ← fillSlots s (fun length => creator.createTree g length childDepth)
        1 (arity - 1) spare.toNat
      Draws.ofExcept (Tree.put (.node s (target.tree :: siblings)) target.path t)

/-- Whether the parent of a site has a child more than it needs. -/
def isRemovable (t : Tree) (site : Site) : Bool :=
  match (Tree.parentPath? site.path).bind (Tree.at? · t) with
  | some parent => parent.symbol.least < parent.children.length
  | none => false

/-- Take a subtree out that its parent can spare; if there is none, put one of its own children in
the place of a node. -/
def removeNode (t : Tree) : Draws σ Tree := do
  let removable := t.sites.filter (isRemovable t)
  if removable.isEmpty then
    let inner := t.sites.filter (·.isInner)
    if inner.isEmpty then return t
    else do
      let site ← Draws.choose inner
      let child ← Draws.choose site.tree.children
      Draws.ofExcept (Tree.put child site.path t)
  else do
    let site ← Draws.choose removable
    Draws.ofExcept (Tree.takeOut site.path t)

/-! ## 3. All mutators -/

/-- What a mutator needs before it runs: a grammar first, if it uses one in any case, and a tree
with a root. -/
def require (operator : String) (g? : Option Grammar) (t? : Option Tree) :
    Draws σ (Grammar × Tree) :=
  match g?, t? with
  | none, _ => throw (.configuration (.needsGrammar operator))
  | some _, none => throw (.invalid .rootlessTree)
  | some g, some t => return (g, t)

/-- A tree with a root. -/
def requireTree (t? : Option Tree) : Draws σ Tree :=
  match t? with
  | none => throw (.invalid .rootlessTree)
  | some t => return t

mutual

/-- Change a tree. -/
def mutate : Mutator → Option Grammar → Option Tree → Draws σ Tree
  | .subtree budget creator, g?, t? => do
    let (g, t) ← require "SubtreeMutator" g? t?
    replaceSubtree (atLeastOne budget) creator g t
  | .changeNodeType attempts, g?, t? => do
    let (g, t) ← require "ChangeNodeTypeMutator" g? t?
    changeFunction attempts g t
  | .changeTerminal range, g?, t? => do
    let t ← requireTree t?
    changeLeaf (clampRange range) g? t
  | .nodeInsertion budget creator, g?, t? => do
    let (g, t) ← require "NodeInsertionMutator" g? t?
    insertNode (atLeastOne budget) creator g t
  | .nodeRemoval, _, t? => do
    let t ← requireTree t?
    removeNode t
  | .combined members, g?, t? => do
    let i ← Draws.int (memberCount members)
    mutateBy i members g? t?
  | .abstract, _, _ => throw .unimplemented

/-- Change a tree by the mutator of an index. -/
def mutateBy : Nat → List Mutator → Option Grammar → Option Tree → Draws σ Tree
  | _, [], _, _ => throw (.range .list)
  | 0, m :: _, g?, t? => mutate m g? t?
  | i + 1, _ :: ms, g?, t? => mutateBy i ms g? t?

/-- How many mutators there are. -/
def memberCount : List Mutator → Nat
  | [] => 0
  | _ :: ms => memberCount ms + 1

end

/-- Several mutators of which one is drawn each time; there is one at least. -/
def combine (members : List Mutator) : Except Failure Mutator :=
  if members.isEmpty then .error (.invalid .noMutators) else .ok (.combined members)

/-! ## 4. Kinds -/

/-- Mutators that do not combine others, without their settings. -/
inductive Kind where
  | subtree
  | changeNodeType
  | changeTerminal
  | nodeInsertion
  | nodeRemoval
  deriving DecidableEq, Repr

/-- All kinds, in order. -/
def Kind.all : List Kind :=
  [.subtree, .changeNodeType, .changeTerminal, .nodeInsertion, .nodeRemoval]

/-- The name of a kind. -/
def Kind.name : Kind → String
  | .subtree => "subtree"
  | .changeNodeType => "change_node_type"
  | .changeTerminal => "change_terminal"
  | .nodeInsertion => "node_insertion"
  | .nodeRemoval => "node_removal"

/-- The kind of a name. -/
def Kind.ofName? (name : String) : Option Kind := Kind.all.find? (·.name = name)

/-- How many nodes are tried, unless set. -/
def defaultAttempts : Int := 10

/-- How far constants move, unless set. -/
def defaultRange : Float := 1.0

/-- A mutator of a kind with the usual settings. -/
def ofKind (kind : Kind) (budget : Budget) (creator : Creator) : Mutator :=
  match kind with
  | .subtree => .subtree budget creator
  | .changeNodeType => .changeNodeType defaultAttempts
  | .changeTerminal => .changeTerminal defaultRange
  | .nodeInsertion => .nodeInsertion budget creator
  | .nodeRemoval => .nodeRemoval

/-- The name of mutators that combine others. -/
def combinedName : String := "combined"

/-- The names of the mutators that can be asked for. -/
def names : List String := Kind.all.map Kind.name ++ [combinedName]

/-- The name under which a mutator is shown. -/
def describe : Mutator → String
  | .subtree .. => "SubtreeMutator"
  | .changeNodeType _ => "ChangeNodeTypeMutator"
  | .changeTerminal _ => "ChangeTerminalMutator"
  | .nodeInsertion .. => "NodeInsertionMutator"
  | .nodeRemoval => "NodeRemovalMutator"
  | .combined _ => "CombinedMutator"
  | .abstract => "Mutator"

end Mutator
end FormulaEvolution
