/-
# Nodes with identity

Trees that are changed in place.  An arena holds nodes, which know their children and their parent,
and trees, each of which has a root or none.  Nodes and trees are named by the order in which they
were made and are never taken away.

A node remembers its length and its depth once they have been asked for; a change forgets what the
node and the nodes above it remember.  Nothing keeps a node from being a child of two nodes, so
walks downwards carry a bound: a path with more nodes than there are visits one of them twice, and
has no end.
-/
import FormulaEvolution.Tree.Document

namespace FormulaEvolution

/-- A node, by the order in which it was made. -/
abbrev NodeId := Nat

/-- A tree, by the order in which it was made. -/
abbrev TreeId := Nat

/-- What a node was made as.  A later change of its symbol does not change it. -/
inductive NodeForm where
  | constant (value : Float)
  | variable
  | plain

/-- A node: its form and symbol, its place among others, and what it remembers. -/
structure Node where
  form : NodeForm
  symbol : Symbol
  children : List NodeId := []
  parent : Option NodeId := none
  knownLength : Option Nat := none
  knownDepth : Option Nat := none

/-- Nodes and trees.  A tree is its root, if it has one. -/
structure Arena where
  nodes : List Node := []
  roots : List (Option NodeId) := []

namespace Node

/-! ## 1. Making nodes -/

/-- A node without a form of its own. -/
def makePlain : Option Symbol → Except Failure Node
  | none => .error (.invalid .noSymbol)
  | some s => .ok { form := .plain, symbol := s }

/-- A node with a constant; its symbol must be one of constants. -/
def makeConstant (s : Symbol) (value : Float) : Except Failure Node :=
  if s.isConstant then .ok { form := .constant value, symbol := s }
  else .error (.invalid (.notConstant s.name))

/-- A node with a variable; its symbol must be one of variables. -/
def makeVariable (s : Symbol) : Except Failure Node :=
  if s.isVariable then .ok { form := .variable, symbol := s }
  else .error (.invalid (.notVariable s.name))

/-- The node that a symbol asks for.  A constant has the given value. -/
def ofSymbol (s : Symbol) (value : Float) : Node where
  form := if s.isConstant then .constant value else if s.isVariable then .variable else .plain
  symbol := s

/-- The name of a form. -/
def formName : NodeForm → String
  | .constant _ => "ConstantTreeNode"
  | .variable => "VariableTreeNode"
  | .plain => "TreeNode"

/-- How a node is shown. -/
def describe (n : Node) : String :=
  formName n.form ++ "(" ++ Text.Quoted.quote n.symbol.name ++ ")"

/-- The node without what it remembers. -/
def forgotten (n : Node) : Node := { n with knownLength := none, knownDepth := none }

end Node

namespace Arena

/-! ## 2. Cells -/

/-- The node of an id. -/
def node? (a : Arena) (i : NodeId) : Option Node := a.nodes[i]?

/-- Change one node. -/
def alter (a : Arena) (i : NodeId) (f : Node → Node) : Arena :=
  { a with nodes := a.nodes.modify i f }

/-- Add a node. -/
def allocate (a : Arena) (n : Node) : NodeId × Arena :=
  (a.nodes.length, { a with nodes := a.nodes ++ [n] })

/-- Add a tree. -/
def allocateTree (a : Arena) (root : Option NodeId) : TreeId × Arena :=
  (a.roots.length, { a with roots := a.roots ++ [root] })

/-- The node of an id, which must be there. -/
def expect (a : Arena) (i : NodeId) : Except Failure Node :=
  match a.node? i with
  | some n => .ok n
  | none => .error .noSuchMember

/-- The root of a tree, if it has one. -/
def root? (a : Arena) (t : TreeId) : Option NodeId := (a.roots[t]?).join

/-- The children of a node. -/
def childrenOf (a : Arena) (i : NodeId) : List NodeId := (a.node? i).elim [] (·.children)

/-- The parent of a node. -/
def parentOf (a : Arena) (i : NodeId) : Option NodeId := (a.node? i).bind (·.parent)

theorem node?_alter (a : Arena) (i j : NodeId) (f : Node → Node) :
    (a.alter i f).node? j = if i = j then (a.node? j).map f else a.node? j := by
  simp only [node?, alter, List.getElem?_modify]
  split <;> simp

@[simp] theorem roots_alter (a : Arena) (i : NodeId) (f : Node → Node) :
    (a.alter i f).roots = a.roots := rfl

@[simp] theorem length_alter (a : Arena) (i : NodeId) (f : Node → Node) :
    (a.alter i f).nodes.length = a.nodes.length := by
  simp [alter]

theorem node?_allocate (a : Arena) (n : Node) (j : NodeId) :
    (a.allocate n).2.node? j = if j = a.nodes.length then some n else a.node? j := by
  simp only [node?, allocate, List.getElem?_append]
  by_cases hj : j = a.nodes.length
  · simp [hj]
  · rw [if_neg hj]
    split
    · rfl
    · next h =>
      have hle : a.nodes.length ≤ j := Nat.le_of_not_lt h
      have hlt : a.nodes.length < j := Nat.lt_of_le_of_ne hle (Ne.symm hj)
      rw [List.getElem?_eq_none (Nat.sub_pos_of_lt hlt), List.getElem?_eq_none hle]

/-! ## 3. Upwards -/

/-- A node and the nodes above it, at most `bound` of them. -/
def chain (a : Arena) : Nat → NodeId → List NodeId
  | 0, _ => []
  | bound + 1, i =>
    i :: match a.parentOf i with
      | none => []
      | some p => chain a bound p

/-- A node and all nodes above it. -/
def upward (a : Arena) (i : NodeId) : List NodeId := a.chain (a.nodes.length + 1) i

/-- The number of edges between a node and the top. -/
def level (a : Arena) (i : NodeId) : Nat := (a.upward i).length - 1

/-! ## 4. Downwards -/

/-- A bound on the nodes of a path that visits no node twice, with room for a second such path
below the first. -/
def pathBound (a : Arena) : Nat := 2 * a.nodes.length + 2

/-- The nodes of a walk below several nodes; it stops at the first one that does not end. -/
def walkAll (visit : NodeId → List NodeId × Bool) : List NodeId → List NodeId × Bool
  | [] => ([], true)
  | c :: cs =>
    let (first, ended) := visit c
    if ended then
      let (rest, ended) := walkAll visit cs
      (first ++ rest, ended)
    else (first, false)

/-- A node and the nodes below it, each before those below it, and whether the walk came to an
end. -/
def walk (a : Arena) : Nat → NodeId → List NodeId × Bool
  | 0, _ => ([], false)
  | bound + 1, i =>
    let (below, ended) := walkAll (a.walk bound) (a.childrenOf i)
    (i :: below, ended)

/-- A node and the nodes below it, each before those below it. -/
def preorder (a : Arena) (i : NodeId) : Except Failure (List NodeId) :=
  match a.walk a.pathBound i with
  | (nodes, true) => .ok nodes
  | (_, false) => .error .endless

/-- A node and the nodes below it within a bound, each after those below it. -/
def postorderWithin (a : Arena) : Nat → NodeId → Except Failure (List NodeId)
  | 0, _ => .error .endless
  | bound + 1, i => do
    let below ← (a.childrenOf i).mapM (postorderWithin a bound)
    return below.flatten ++ [i]

/-- A node and the nodes below it, each after those below it. -/
def postorder (a : Arena) (i : NodeId) : Except Failure (List NodeId) :=
  a.postorderWithin a.pathBound i

/-- Fail with the first node whose symbol does not take its number of children. -/
def check (a : Arena) (i : NodeId) : Except Failure Unit :=
  let (nodes, ended) := a.walk a.pathBound i
  match (nodes.filterMap a.node?).find? fun n => !n.symbol.accepts n.children.length with
  | some n => .error (.arity (Tree.arityFault n.symbol n.children.length))
  | none => if ended then .ok () else .error .endless

/-- The tree below a node within a bound, as a value. -/
def toTreeWithin (a : Arena) : Nat → NodeId → Except Failure Tree
  | 0, _ => .error .endless
  | bound + 1, i => do
    let n ← a.expect i
    match n.form with
    | .constant value => return .constant n.symbol value
    | .variable => return .variable n.symbol
    | .plain =>
      let cs ← n.children.mapM (toTreeWithin a bound)
      return .node n.symbol cs

/-- The tree below a node, as a value. -/
def toTree (a : Arena) (i : NodeId) : Except Failure Tree := a.toTreeWithin a.pathBound i

/-- A tree as a value, which is nothing if it has no root. -/
def toTree? (a : Arena) (t : TreeId) : Except Failure (Option Tree) :=
  match a.root? t with
  | none => .ok none
  | some i => (a.toTree i).map some

/-! ## 5. Length and depth -/

/-- A question to an arena: it may fail, and what has been remembered on the way stays. -/
abbrev Asking := ExceptT Failure (StateM Arena)

/-- The number of nodes below and including a node, remembered for the next time. -/
def askLengthWithin : Nat → NodeId → Asking Nat
  | 0, _ => throw .endless
  | bound + 1, i => do
    let n ← (← get).expect i
    match n.knownLength with
    | some known => return known
    | none =>
      let below ← n.children.mapM (askLengthWithin bound)
      let length := 1 + below.sum
      modify (·.alter i fun n => { n with knownLength := some length })
      return length

/-- The number of nodes below and including a node. -/
def askLength (i : NodeId) : Asking Nat := do askLengthWithin (← get).pathBound i

/-- The number of levels below and including a node, remembered for the next time. -/
def askDepthWithin : Nat → NodeId → Asking Nat
  | 0, _ => throw .endless
  | bound + 1, i => do
    let n ← (← get).expect i
    match n.knownDepth with
    | some known => return known
    | none =>
      let below ← n.children.mapM (askDepthWithin bound)
      let depth := 1 + below.foldl max 0
      modify (·.alter i fun n => { n with knownDepth := some depth })
      return depth

/-- The number of levels below and including a node. -/
def askDepth (i : NodeId) : Asking Nat := do askDepthWithin (← get).pathBound i

/-- The length of a tree; one without a root has none. -/
def askTreeLength (t : TreeId) : Asking Nat := do
  match (← get).root? t with
  | none => return 0
  | some i => askLength i

/-- The depth of a tree; one without a root has none. -/
def askTreeDepth (t : TreeId) : Asking Nat := do
  match (← get).root? t with
  | none => return 0
  | some i => askDepth i

/-! ## 6. What is shown -/

/-- The text of a tree. -/
def treeTextOf (a : Arena) (t : TreeId) : Except Failure String := (a.toTree? t).map treeText

/-- How a tree is shown. -/
def askDescription (t : TreeId) : Asking String := do
  let length ← askTreeLength t
  let depth ← askTreeDepth t
  return "SymbolicExpressionTree(length=" ++ toString length ++ ", depth=" ++ toString depth ++ ")"

/-- The document of a tree, with the length and the depth that it answers with. -/
def askDocument (t : TreeId) : Asking Json := do
  let tree ← (← get).toTree? t
  let length ← askTreeLength t
  let depth ← askTreeDepth t
  return .object [("root", (tree.map Tree.toJson).getD .null), ("length", .int length),
    ("depth", .int depth), ("expression", .string (treeText tree))]

end Arena
end FormulaEvolution
