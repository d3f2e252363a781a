/-
# Copying graphs of objects

A copier turns objects that refer to each other into new objects that refer to each other in the
same way.  It keeps a registry of what it has copied, so that an object met twice, be it shared or
on a cycle, has one copy.

An object registers its copy before its references are copied.  A late one leaves that to the
copier, which registers the copy afterwards, unless another one has been registered meanwhile.
-/
import FormulaEvolution.Failure

namespace FormulaEvolution

/-! ## 1. Objects -/

/-- An object, by its place in a graph. -/
abbrev ObjectId := Nat

/-- A copy, by the order in which it was made. -/
abbrev CopyId := Nat

/-- An object of a graph: one that can be copied, with a label and references, or a value of a type
that cannot, or nothing. -/
inductive Part where
  | object (label : String) (references : List (Option ObjectId)) (late : Bool)
  | fixed (typeName : String)
  | missing
  deriving Inhabited

/-- A graph of objects. -/
abbrev Graph := List Part

/-- A copy of an object. -/
structure Copy where
  label : String
  references : List (Option CopyId) := []
  deriving Inhabited

/-- All copies made so far, and the copies of this pass by their origins. -/
structure Copier where
  made : List Copy := []
  registry : List (ObjectId × CopyId) := []

namespace Copier

/-! ## 2. The registry -/

/-- The registered copy of an object. -/
def registered? (c : Copier) (i : ObjectId) : Option CopyId :=
  (c.registry.find? (·.1 = i)).map (·.2)

/-- Register a copy, in place of an earlier one of the same object. -/
def register (c : Copier) (i : ObjectId) (j : CopyId) : Copier :=
  if c.registry.any (·.1 = i) then
    { c with registry := c.registry.map fun p => if p.1 = i then (i, j) else p }
  else { c with registry := c.registry ++ [(i, j)] }

/-- How many objects are registered. -/
def size (c : Copier) : Nat := c.registry.length

/-- The copier of a new pass, which has nothing registered. -/
def fresh (c : Copier) : Copier := { c with registry := [] }

/-- Make a copy without references. -/
def addShell (c : Copier) (label : String) : CopyId × Copier :=
  (c.made.length, { c with made := c.made ++ [⟨label, []⟩] })

/-- Give a copy one more reference. -/
def refer (c : Copier) (j : CopyId) (r : Option CopyId) : Copier :=
  { c with made := c.made.modify j fun copy => { copy with references := copy.references ++ [r] } }

/-! ## 3. Copying -/

/-- Copying may fail, and the copies made on the way stay. -/
abbrev Copying := ExceptT Failure (StateM Copier)

/-- Give a copy the copies of references, one after the other. -/
def copyReferences (copyOne : Option ObjectId → Copying (Option CopyId)) (j : CopyId) :
    List (Option ObjectId) → Copying Unit
  | [] => return ()
  | r :: rest => do
    let copy ← copyOne r
    modify (·.refer j copy)
    copyReferences copyOne j rest

/-- The copy of an object; nothing is the copy of nothing.  Running out of `bound` means that the
copying would go on for ever. -/
def copyWithin (graph : Graph) : Nat → Option ObjectId → Copying (Option CopyId)
  | _, none => return none
  | bound, some i => do
    match graph.getD i .missing with
    | .missing => return none
    | part =>
      match (← get).registered? i with
      | some j => return some j
      | none =>
        match part, bound with
        | .missing, _ => return none
        | .fixed typeName, _ => throw (.uncopyable typeName)
        | .object .., 0 => throw .endless
        | .object label references late, bound + 1 => do
          let (j, c) := (← get).addShell label
          set (if late then c else c.register i j)
          copyReferences (copyWithin graph bound) j references
          if ((← get).registered? i).isNone then modify (·.register i j)
          return some j

/-- A bound on the objects that a path can have: between two registrations it meets each late
object at most once. -/
def pathBound (graph : Graph) : Nat := (graph.length + 1) * (graph.length + 1)

/-- The copy of an object, in the pass that is going on. -/
def copy (graph : Graph) (i : Option ObjectId) : Copying (Option CopyId) :=
  copyWithin graph (pathBound graph) i

/-- The copy of an object in a pass of its own, which leaves the pass that is going on alone. -/
def deepCopy (graph : Graph) (i : Option ObjectId) : Copying (Option CopyId) := fun c =>
  match i.map fun i => graph.getD i .missing with
  | some (.object ..) =>
    let (result, done) := (copy graph i).run c.fresh
    (result, { done with registry := c.registry })
  | _ => (.error .noSuchMember, c)

/-! ## 4. What a copy looks like -/

/-- A copy and the copies it refers to, directly or not, each once and each before those that it is
the first to refer to. -/
def reached (c : Copier) : Nat → List CopyId → CopyId → List CopyId
  | 0, seen, _ => seen
  | bound + 1, seen, j =>
    if seen.contains j then seen
    else
      (c.made.getD j default).references.foldl
        (fun seen r => r.elim seen (reached c bound seen)) (seen ++ [j])

/-- A copy as a list: the label of each copy reached, and where in the list its references are. -/
def shape (c : Copier) (j : CopyId) : List (String × List (Option Nat)) :=
  let order := c.reached (c.made.length + 1) [] j
  order.map fun k =>
    let copy := c.made.getD k default
    (copy.label, copy.references.map fun r => r.bind fun r => order.idxOf? r)

end Copier
end FormulaEvolution
