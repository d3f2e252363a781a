/-
# Changing nodes in place

Children are added, taken out and exchanged, symbols are exchanged, and trees get roots.  A change
that is refused leaves the arena alone, since it gives no new one.

A node that gets a child looks at its symbol first: it never has more children than that takes, and
none is taken out if that left too few.
-/
import FormulaEvolution.Arena.Basic

namespace FormulaEvolution
namespace Arena

/-! ## 1. Forgetting -/

/-- Forget what some nodes remember. -/
def forgetAll (a : Arena) (is : List NodeId) : Arena :=
  is.foldl (fun a i => a.alter i Node.forgotten) a

/-- Forget what a node and the nodes above it remember. -/
def forgetUpward (a : Arena) (i : NodeId) : Arena := a.forgetAll (a.upward i)

/-- Make a node the parent of another one. -/
def setParent (a : Arena) (c : NodeId) (p : Option NodeId) : Arena :=
  a.alter c fun n => { n with parent := p }

/-- Give a node other children. -/
def setChildren (a : Arena) (p : NodeId) (cs : List NodeId) : Arena :=
  a.alter p fun n => { n with children := cs }

/-! ## 2. Children -/

/-- The position that an index means for an insertion into `count` items: negative ones count from
the end, and what lies outside is moved to the nearest end. -/
def insertPosition (count : Nat) (index : Int) : Nat :=
  if index < 0 then (count + index).toNat else min index.toNat count

/-- Add a child to a node at an index. -/
def insertChild (a : Arena) (p : NodeId) (index : Int) (c? : Option NodeId) :
    Except Failure Arena := do
  let n ← a.expect p
  match c? with
  | none => throw (.invalid .addMissing)
  | some c =>
    let count := n.children.length
    if n.symbol.most < count + 1 then
      throw (.arity ⟨n.symbol.name, count, n.symbol.least, n.symbol.most, .tooMany (count + 1)⟩)
    else
      let a := a.setChildren p (n.children.insertIdx (insertPosition count index) c)
      return (a.setParent c (some p)).forgetUpward p

/-- Add a child to a node, after the others. -/
def addChild (a : Arena) (p : NodeId) (c? : Option NodeId) : Except Failure Arena := do
  let n ← a.expect p
  a.insertChild p n.children.length c?

/-- The index of a child that is taken out or exchanged must be one of those there are. -/
def childAt (n : Node) (index : Int) : Except Failure NodeId :=
  match if index < 0 then none else n.children[index.toNat]? with
  | some c => .ok c
  | none => .error (.range (.subtree index n.symbol.name))

/-- Take the child at an index out. -/
def removeChild (a : Arena) (p : NodeId) (index : Int) : Except Failure (NodeId × Arena) := do
  let n ← a.expect p
  let c ← childAt n index
  let count := n.children.length
  if count - 1 < n.symbol.least then
    throw (.arity ⟨n.symbol.name, count, n.symbol.least, n.symbol.most, .tooFew (count - 1)⟩)
  else
    let a := a.setChildren p (n.children.eraseIdx index.toNat)
    return (c, (a.setParent c none).forgetUpward p)

/-- Exchange the child at an index. -/
def replaceChild (a : Arena) (p : NodeId) (index : Int) (c? : Option NodeId) :
    Except Failure (NodeId × Arena) := do
  let n ← a.expect p
  match c? with
  | none => throw (.invalid .replaceByMissing)
  | some c =>
    let old ← childAt n index
    let a := (a.setParent old none).setChildren p (n.children.set index.toNat c)
    return (old, (a.setParent c (some p)).forgetUpward p)

/-- The child at an index; negative ones count from the end. -/
def childOf (a : Arena) (p : NodeId) (index : Int) : Except Failure NodeId := do
  let n ← a.expect p
  let place := if index < 0 then n.children.length + index else index
  match if place < 0 then none else n.children[place.toNat]? with
  | some c => return c
  | none => throw (.range .list)

/-- The index of a child, if it is one. -/
def indexOfChild? (a : Arena) (p : NodeId) (c : NodeId) : Option Nat :=
  (a.childrenOf p).idxOf? c

/-! ## 3. Symbols and values -/

/-- Give a node another symbol, which must take its number of children. -/
def changeSymbol (a : Arena) (i : NodeId) (s : Symbol) : Except Failure Arena := do
  let n ← a.expect i
  if s.accepts n.children.length then return a.alter i fun n => { n with symbol := s }
  else throw (.arity (Tree.arityFault s n.children.length))

/-- The value of a constant. -/
def valueOf (a : Arena) (i : NodeId) : Except Failure Float := do
  match (← a.expect i).form with
  | .constant value => return value
  | _ => throw .noSuchMember

/-- Give a constant another value. -/
def setValue (a : Arena) (i : NodeId) (value : Float) : Arena :=
  a.alter i fun n =>
    match n.form with
    | .constant _ => { n with form := .constant value }
    | _ => n

/-! ## 4. Trees -/

/-- Make a node the root of a tree. -/
def setRoot (a : Arena) (t : TreeId) (i? : Option NodeId) : Except Failure Arena :=
  match i? with
  | none => .error (.invalid .missingRoot)
  | some i =>
    let a := a.setParent i none
    .ok { a with roots := a.roots.set t (some i) }

/-- Make a tree, with a root if one is given. -/
def newTree (a : Arena) (i? : Option NodeId) : TreeId × Arena :=
  match i? with
  | none => a.allocateTree none
  | some i => (a.setParent i none).allocateTree (some i)

/-- Put `new` where `old` stands: at the root or below its parent. -/
def replaceNode (a : Arena) (t : TreeId) (old new : Option NodeId) : Except Failure Arena :=
  if old = a.root? t then a.setRoot t new
  else
    match old with
    | none => .error .noSuchMember
    | some old =>
      match (a.parentOf old).bind fun p => (a.indexOfChild? p old).map fun index => (p, index) with
      | none => .error (.invalid .foreignNode)
      | some (p, index) => (a.replaceChild p index new).map (·.2)

/-! ## 5. From values -/

mutual

/-- Add the nodes of a tree; the first one gets the given parent. -/
def plant (a : Arena) (parent : Option NodeId) : Tree → NodeId × Arena
  | .constant s value =>
    a.allocate { form := .constant value, symbol := s, parent }
  | .variable s => a.allocate { form := .variable, symbol := s, parent }
  | .node s cs =>
    let (i, a) := a.allocate { form := .plain, symbol := s, parent }
    let (is, a) := plantAll a i cs
    (i, a.setChildren i is)

/-- Add the nodes of several trees below a node. -/
def plantAll (a : Arena) (parent : NodeId) : List Tree → List NodeId × Arena
  | [] => ([], a)
  | c :: cs =>
    let (i, a) := plant a (some parent) c
    let (is, a) := plantAll a parent cs
    (i :: is, a)

end

/-! ## 6. Facts -/

@[simp] theorem roots_forgetAll (a : Arena) (is : List NodeId) : (a.forgetAll is).roots = a.roots := by
  induction is generalizing a with
  | nil => rfl
  | cons i is ih => simp only [forgetAll, List.foldl_cons] at ih ⊢; rw [ih, roots_alter]

/-- Forgetting leaves everything but what is remembered. -/
theorem node?_forgetAll (a : Arena) (is : List NodeId) (j : NodeId) :
    (a.forgetAll is).node? j = if j ∈ is then (a.node? j).map Node.forgotten else a.node? j := by
  induction is generalizing a with
  | nil => simp [forgetAll]
  | cons i is ih =>
    simp only [forgetAll, List.foldl_cons] at ih ⊢
    rw [ih, node?_alter]
    by_cases hi : i = j
    · subst hi
      by_cases hj : i ∈ is
      · cases a.node? i <;> simp [hj, Node.forgotten]
      · simp [hj]
    · have hji : ¬ j = i := fun h => hi h.symm
      simp [hi, hji]

end Arena
end FormulaEvolution
