/-
# Expression trees

A tree is a constant, a variable, or a node with a symbol and children in order.  Its length is the
number of its nodes, its depth the number of levels.

* `Tree.check` finds the first node, from the root on and left to right, whose number of children
  its symbol does not take; `Tree.Fits` says that there is none.
* `Tree.Made` says that every node is of the sort that its symbol asks for: constants have a symbol
  of constants, variables one of variables, and all others another one.
-/
import FormulaEvolution.Grammar
import FormulaEvolution.Number.Notation

namespace FormulaEvolution

/-- An expression tree. -/
inductive Tree where
  | constant (symbol : Symbol) (value : Float)
  | variable (symbol : Symbol)
  | node (symbol : Symbol) (children : List Tree)

namespace Tree

/-! ## 1. Parts -/

/-- The symbol at the root. -/
def symbol : Tree → Symbol
  | .constant s _ => s
  | .variable s => s
  | .node s _ => s

/-- The subtrees below the root, in order. -/
def children : Tree → List Tree
  | .node _ cs => cs
  | _ => []

/-- A tree without subtrees. -/
def isLeaf (t : Tree) : Bool := t.children.isEmpty

/-- The same root with other children; leaves with a value or a name keep none. -/
def withChildren (cs : List Tree) : Tree → Tree
  | .node s _ => .node s cs
  | t => t

/-- The node of a symbol that has no children yet; a constant has the given value. -/
def bare (s : Symbol) (value : Float) : Tree :=
  if s.isConstant then .constant s value
  else if s.isVariable then .variable s
  else .node s []

/-! ## 2. Length and depth -/

mutual

/-- The number of nodes. -/
def length : Tree → Nat
  | .constant .. => 1
  | .variable _ => 1
  | .node _ cs => 1 + totalLength cs

/-- The number of nodes of several trees. -/
def totalLength : List Tree → Nat
  | [] => 0
  | c :: cs => length c + totalLength cs

end

mutual

/-- The number of levels. -/
def depth : Tree → Nat
  | .constant .. => 1
  | .variable _ => 1
  | .node _ cs => 1 + greatestDepth cs

/-- The number of levels of the deepest of several trees. -/
def greatestDepth : List Tree → Nat
  | [] => 0
  | c :: cs => max (depth c) (greatestDepth cs)

end

/-- Every tree has a node. -/
theorem length_pos (t : Tree) : 0 < t.length := by
  cases t <;> rw [length] <;> omega

/-- Every tree has a level. -/
theorem depth_pos (t : Tree) : 0 < t.depth := by
  cases t <;> rw [depth] <;> omega

theorem length_eq (t : Tree) : t.length = 1 + totalLength t.children := by
  cases t <;> simp [length, children, totalLength]

theorem depth_eq (t : Tree) : t.depth = 1 + greatestDepth t.children := by
  cases t <;> simp [depth, children, greatestDepth]

@[simp] theorem totalLength_append (cs ds : List Tree) :
    totalLength (cs ++ ds) = totalLength cs + totalLength ds := by
  induction cs with
  | nil => simp [totalLength]
  | cons c cs ih => simp only [List.cons_append, totalLength, ih]; omega

@[simp] theorem greatestDepth_append (cs ds : List Tree) :
    greatestDepth (cs ++ ds) = max (greatestDepth cs) (greatestDepth ds) := by
  induction cs with
  | nil => simp [greatestDepth]
  | cons c cs ih => simp only [List.cons_append, greatestDepth, ih]; omega

/-! ## 3. Traversals -/

mutual

/-- All subtrees, each before those below it. -/
def preorder : Tree → List Tree
  | .constant s v => [.constant s v]
  | .variable s => [.variable s]
  | .node s cs => .node s cs :: preorderAll cs

/-- The subtrees of several trees, each before those below it. -/
def preorderAll : List Tree → List Tree
  | [] => []
  | c :: cs => preorder c ++ preorderAll cs

end

mutual

/-- All subtrees, each after those below it. -/
def postorder : Tree → List Tree
  | .constant s v => [.constant s v]
  | .variable s => [.variable s]
  | .node s cs => postorderAll cs ++ [.node s cs]

/-- The subtrees of several trees, each after those below it. -/
def postorderAll : List Tree → List Tree
  | [] => []
  | c :: cs => postorder c ++ postorderAll cs

end

/-- The values of all constants, in the order of `preorder`. -/
def constants (t : Tree) : List Float :=
  t.preorder.filterMap fun
    | .constant _ value => some value
    | _ => none

/-! ## 4. Arity and sorts -/

/-- The fault of a node whose symbol does not take its number of children. -/
def arityFault (s : Symbol) (count : Nat) : ArityFault := ⟨s.name, count, s.least, s.most, .outside⟩

/-- One more child is refused when a symbol has all it takes. -/
def roomFor (s : Symbol) (count : Nat) : Except Failure Unit :=
  if s.most < count + 1 then
    .error (.arity ⟨s.name, count, s.least, s.most, .tooMany (count + 1)⟩)
  else .ok ()

/-- The same tree with another symbol at the root. -/
def relabel (s : Symbol) : Tree → Tree
  | .constant _ value => .constant s value
  | .variable _ => .variable s
  | .node _ cs => .node s cs

/-- Give the root another symbol, which must take its number of children. -/
def rebind (s : Symbol) (t : Tree) : Except Failure Tree :=
  if s.accepts t.children.length then .ok (t.relabel s)
  else .error (.arity (arityFault s t.children.length))

/-- Fail with the first node whose symbol does not take its number of children. -/
def check (t : Tree) : Except Failure Unit :=
  match t.preorder.find? fun u => !u.symbol.accepts u.children.length with
  | some u => .error (.arity (arityFault u.symbol u.children.length))
  | none => .ok ()

/-- Every node's symbol takes its number of children. -/
def Fits (t : Tree) : Prop := ∀ u ∈ t.preorder, u.symbol.accepts u.children.length = true

/-- What a node stands for, which is settled when it is made. -/
def kind? : Tree → Option TerminalKind
  | .constant .. => some .constant
  | .variable _ => some .variable
  | .node .. => none

/-- A node is of the sort that its symbol asks for. -/
def Sorted : Tree → Prop
  | .constant s _ => s.isConstant = true
  | .variable s => s.isVariable = true
  | .node s _ => s.isConstant = false ∧ s.isVariable = false

/-- Every node is of the sort that its symbol asks for. -/
def Made (t : Tree) : Prop := ∀ u ∈ t.preorder, u.Sorted

/-- A node is of the sort that its symbol asks for if it stands for what the symbol stands for. -/
theorem sorted_iff : ∀ t : Tree, t.Sorted ↔ t.symbol.kind = t.kind?
  | .constant s _ => by simp [Sorted, Symbol.isConstant, symbol, kind?]
  | .variable s => by simp [Sorted, Symbol.isVariable, symbol, kind?]
  | .node s _ => by
    simp only [Sorted, Symbol.isConstant, Symbol.isVariable, symbol, kind?, decide_eq_false_iff_not]
    match s.kind with
    | none => simp
    | some .constant => simp
    | some .variable => simp

/-- A tree passes the check exactly if all its nodes fit. -/
theorem check_eq_ok_iff (t : Tree) : t.check = .ok () ↔ t.Fits := by
  unfold check Fits
  split
  · next u h =>
    have hu := List.find?_some h
    have hm := List.mem_of_find?_eq_some h
    simp only [reduceCtorEq, false_iff]
    intro hall
    have := hall u hm
    simp [this] at hu
  · next h =>
    simp only [true_iff]
    intro u hu
    simpa using List.find?_eq_none.mp h u hu

/-! ## 5. Text -/

mutual

/-- The tree as text: a constant with six significant digits, a variable by its name, any other
node by its name and its children in parentheses. -/
def chars : Tree → List Char
  | .constant _ value => (Number.briefText value).toList
  | .variable s => s.name.toList
  | .node s cs => s.name.toList ++ '(' :: (charsAll cs ++ [')'])

/-- Several trees as text, separated by commas. -/
def charsAll : List Tree → List Char
  | [] => []
  | c :: cs => chars c ++ charsRest cs

/-- Trees after the first one as text. -/
def charsRest : List Tree → List Char
  | [] => []
  | c :: cs => ',' :: ' ' :: (chars c ++ charsRest cs)

end

/-- The tree as text. -/
def text (t : Tree) : String := String.ofList t.chars

end Tree

/-! ## 6. Trees that may be empty -/

/-- The text of a tree that may be empty. -/
def treeText : Option Tree → String
  | none => "<empty>"
  | some t => t.text

/-- The length of a tree that may be empty. -/
def treeLength : Option Tree → Nat
  | none => 0
  | some t => t.length

/-- The depth of a tree that may be empty. -/
def treeDepth : Option Tree → Nat
  | none => 0
  | some t => t.depth

/-- How a tree that may be empty is shown. -/
def describeTree (t : Option Tree) : String :=
  "SymbolicExpressionTree(length=" ++ toString (treeLength t) ++ ", depth=" ++
    toString (treeDepth t) ++ ")"

end FormulaEvolution
