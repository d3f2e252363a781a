/-
# Copying nodes in place

A copy of a node is a new node with copies of its children.  A node that is met a second time is
not copied again, so that what was shared stays shared.  A copy remembers what its origin remembers
and has as its parent the copy that took it in last.
-/
import FormulaEvolution.Arena.Change

namespace FormulaEvolution
namespace Arena

/-- An arena in which copies are being made, and the copies so far by their origins. -/
structure CopyState where
  arena : Arena
  copies : List (NodeId × NodeId) := []

namespace CopyState

/-- The copy of a node, if it has been made. -/
def copyOf? (s : CopyState) (i : NodeId) : Option NodeId := (s.copies.find? (·.1 = i)).map (·.2)

/-- Add the copy of a node without its children. -/
def addShell (s : CopyState) (i : NodeId) (n : Node) : NodeId × CopyState :=
  let (j, a) := s.arena.allocate { n with children := [], parent := none }
  (j, ⟨a, s.copies ++ [(i, j)]⟩)

/-- Make a copy the last child of another one. -/
def attach (s : CopyState) (p c : NodeId) : CopyState :=
  let a := s.arena.alter p fun n => { n with children := n.children ++ [c] }
  { s with arena := a.setParent c (some p) }

end CopyState

/-- The children that a copy gets: constants and variables are copied without. -/
def copiedChildren (n : Node) : List NodeId :=
  match n.form with
  | .plain => n.children
  | _ => []

/-- Copy nodes and make the copies children of a node. -/
def copyChildren (copyOne : NodeId → CopyState → NodeId × CopyState) (p : NodeId) :
    List NodeId → CopyState → CopyState
  | [], s => s
  | c :: cs, s =>
    let (j, s) := copyOne c s
    copyChildren copyOne p cs (s.attach p j)

/-- The copy of a node, made if it has not been made yet.  The nodes on a path down are all new,
so a bound of their number is never reached. -/
def copyWithin : Nat → NodeId → CopyState → NodeId × CopyState
  | 0, i, s => (i, s)
  | bound + 1, i, s =>
    match s.copyOf? i with
    | some j => (j, s)
    | none =>
      match s.arena.node? i with
      | none => (i, s)
      | some n =>
        let (j, s) := s.addShell i n
        (j, copyChildren (copyWithin bound) j (copiedChildren n) s)

/-- A copy of a node and of all that is below it. -/
def copyNode (a : Arena) (i : NodeId) : NodeId × Arena :=
  let (j, s) := copyWithin (a.nodes.length + 1) i ⟨a, []⟩
  (j, s.arena)

/-- A copy of a tree. -/
def copyTree (a : Arena) (t : TreeId) : TreeId × Arena :=
  match a.root? t with
  | none => a.allocateTree none
  | some i =>
    let (j, a) := a.copyNode i
    a.allocateTree (some j)

end Arena
end FormulaEvolution
