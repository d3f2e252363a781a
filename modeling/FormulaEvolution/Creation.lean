/-
# Growing trees

New trees within a budget of nodes and a budget of levels.  `Creator.grow` picks among all symbols
that fit at every place, `Creator.full` uses functions only until the levels run out.

A node shares what is left of its nodes over the children that are still to come, and every child
gets at least one.  Both creators stop with a terminal when either budget is down to one, so the
recursion is over the levels.
-/
import FormulaEvolution.Selection
import FormulaEvolution.Tree.Basic

namespace FormulaEvolution

variable {σ : Type} [RandomSource σ]

/-- Most children that a new node has beyond those it needs. -/
def createdArityLimit : Nat := 5

/-- A new node without children.  A constant gets a value from its range. -/
def freshNode (s : Symbol) : Draws σ Tree :=
  if s.isConstant then do
    let value ← Draws.uniform s.range.1 s.range.2
    return .constant s value
  else return Tree.bare s 0.0

/-- A new terminal. -/
def freshTerminal (g : Grammar) : Draws σ Tree :=
  if g.terminals.isEmpty then throw (.configuration (.noTerminals g.name))
  else do
    let s ← chooseSymbol g.terminals
    freshNode s

/-- A symbol fits into a length if it is a terminal or leaves room for the children it needs. -/
def fitsInto (s : Symbol) (length : Nat) : Bool := s.isTerminal || 1 + s.least ≤ length

/-- Make trees for a number of slots of a node with `count` children, sharing `remaining` nodes over
them.  Each is added once it is made, which the node's symbol may refuse. -/
def fillSlots (s : Symbol) (make : Nat → Draws σ Tree) : Nat → Nat → Nat → Draws σ (List Tree)
  | _, 0, _ => return []
  | count, slots + 1, remaining => do
    let c ← make (max 1 (remaining / (slots + 1)))
    Draws.ofExcept (Tree.roomFor s count)
    let cs ← fillSlots s make (count + 1) slots (remaining - c.length)
    return c :: cs

/-- Give a new node its children. -/
def addChildren (t : Tree) (make : Nat → Draws σ Tree) (arity length : Nat) : Draws σ Tree := do
  let cs ← fillSlots t.symbol make 0 arity (length - 1)
  return t.withChildren cs

/-- The most children that a new node of a symbol gets in a length. -/
def arityCap (s : Symbol) (length : Nat) : Nat := min s.most (min createdArityLimit (length - 1))

/-- A strategy for growing trees.  `abstract` has none. -/
inductive Creator where
  | grow
  | full
  | abstract
  deriving DecidableEq, Repr

namespace Creator

/-- How many children a new node gets when all counts up to the cap are open to it. -/
def growArity (s : Symbol) (length : Nat) : Draws σ Nat :=
  if arityCap s length ≤ s.least then return s.least
  else do
    let arity ← Draws.span s.least (arityCap s length + 1 : Nat)
    return arity.toNat

/-- How many children a new node gets when it takes as many as the cap allows. -/
def fullArity (s : Symbol) (length : Nat) : Nat := max s.least (arityCap s length)

/-- Grow a node and what is below it, picking among all candidates that fit. -/
def growNode (g : Grammar) : Nat → Nat → Draws σ Tree
  | 0, _ => freshTerminal g
  | 1, _ => freshTerminal g
  | depth + 2, length =>
    let candidates := g.enabledSymbols.filter (fitsInto · length)
    if length ≤ 1 || candidates.isEmpty then freshTerminal g
    else do
      let s ← chooseSymbol candidates
      let t ← freshNode s
      if s.isTerminal then return t
      else do
        let arity ← growArity s length
        addChildren t (growNode g (depth + 1)) arity length

/-- Grow a node and what is below it, using functions as long as they fit. -/
def fullNode (g : Grammar) : Nat → Nat → Draws σ Tree
  | 0, _ => freshTerminal g
  | 1, _ => freshTerminal g
  | depth + 2, length =>
    let functions := g.functions.filter (fitsInto · length)
    if length ≤ 1 || functions.isEmpty then freshTerminal g
    else do
      let s ← chooseSymbol functions
      let t ← freshNode s
      addChildren t (fullNode g (depth + 1)) (fullArity s length) length

/-- Grow a node and what is below it. -/
def createNode (c : Creator) (g : Grammar) (maxLength maxDepth : Int) : Draws σ Tree :=
  match c with
  | .grow => growNode g maxDepth.toNat maxLength.toNat
  | .full => fullNode g maxDepth.toNat maxLength.toNat
  | .abstract => throw .unimplemented

/-- Grow a tree.  Both budgets are at least one, and the grammar has a terminal to end with. -/
def createTree (c : Creator) (g : Grammar) (maxLength maxDepth : Int) : Draws σ Tree :=
  if maxLength < 1 then throw (.invalid .lengthBudget)
  else if maxDepth < 1 then throw (.invalid .depthBudget)
  else if g.terminals.isEmpty then throw (.configuration (.endlessTrees g.name))
  else c.createNode g maxLength maxDepth

/-- Grow a tree from what a caller has: a source and a grammar, either of which may be missing. -/
def requestTree (c : Creator) (source? : Option σ) (grammar? : Option Grammar)
    (maxLength maxDepth : Int) : Except Failure Tree × Option σ :=
  match source?, grammar? with
  | none, _ => (.error (.invalid .noSource), none)
  | some s, none => (.error (.invalid .noGrammar), some s)
  | some s, some g =>
    let (result, s) := (c.createTree g maxLength maxDepth).runFrom s
    (result, some s)

/-- Creators by name. -/
def ofName? (name : String) : Option Creator :=
  if name = "grow" then some .grow
  else if name = "full" then some .full
  else none

/-- The names of the creators that can be asked for. -/
def names : List String := ["grow", "full"]

/-- The name under which a creator is shown. -/
def describe : Creator → String
  | .grow => "GrowTreeCreator"
  | .full => "FullTreeCreator"
  | .abstract => "TreeCreator"

end Creator
end FormulaEvolution
