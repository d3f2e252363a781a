/-
# Trees as documents

A tree as a JSON value and back.  A node is an object with the name of its symbol; a constant has
its value beside it, a variable nothing, any other node the list of its subtrees.

Reading looks symbols up in a grammar, whether they are enabled or not, and checks the number of
children of every node.  A reading that is not `complete` lets children be missing.
-/
import FormulaEvolution.Json.Display
import FormulaEvolution.Json.Writer
import FormulaEvolution.Tree.Basic

namespace FormulaEvolution
namespace Tree

/-! ## 1. Writing -/

mutual

/-- A tree as a value. -/
def toJson : Tree → Json
  | .constant s value => .object [("symbol", .string s.name), ("value", .float value)]
  | .variable s => .object [("symbol", .string s.name)]
  | .node s cs => .object [("symbol", .string s.name), ("subtrees", .list (toJsonAll cs))]

/-- Several trees as values. -/
def toJsonAll : List Tree → List Json
  | [] => []
  | c :: cs => toJson c :: toJsonAll cs

end

/-! ## 2. Reading -/

/-- The symbol that a node's fields name. -/
def readSymbol (g : Grammar) (fields : List (String × Json)) : Except Failure Symbol :=
  match Dictionary.value? fields "symbol" with
  | none => .error (.absentKey "symbol")
  | some (.list _) => .error (.mistyped .other)
  | some (.object _) => .error (.mistyped .other)
  | some (.string name) =>
    match g.symbol? name with
    | some s => .ok s
    | none => .error (.invalid (.unknownSymbol name))
  | some value => .error (.invalid (.unknownSymbol value.plain))

/-- The value of a constant. -/
def readConstant (fields : List (String × Json)) : Except Failure Float :=
  match Dictionary.value? fields "value" with
  | none => .error (.absentKey "value")
  | some value => value.toFloat

/-- Put a node together from its symbol, its value if it is a constant, and its children. -/
def assemble (complete : Bool) (s : Symbol) (value : Float) (cs : List Tree) :
    Except Failure Tree :=
  if s.accepts cs.length || !complete then
    .ok (if cs.isEmpty then bare s value else .node s cs)
  else .error (.arity (arityFault s cs.length))

mutual

/-- Read a tree. -/
def read (complete : Bool) (g : Grammar) : Json → Except Failure Tree
  | .object fields => do
    let s ← readSymbol g fields
    let value ← if s.isConstant then readConstant fields else .ok 0.0
    let cs ← readSubtrees complete g s fields
    assemble complete s value cs
  | _ => .error (.mistyped .other)

/-- Read the subtrees that are among the fields of a node, if any are given. -/
def readSubtrees (complete : Bool) (g : Grammar) (s : Symbol) :
    List (String × Json) → Except Failure (List Tree)
  | [] => .ok []
  | (name, value) :: fields =>
    if name = "subtrees" then readItems complete g s value else readSubtrees complete g s fields

/-- Read the subtrees of a node. -/
def readItems (complete : Bool) (g : Grammar) (s : Symbol) : Json → Except Failure (List Tree)
  | .list items => readList complete g s 0 items
  | .string text => if text = "" then .ok [] else .error (.mistyped .other)
  | .object [] => .ok []
  | _ => .error (.mistyped .other)

/-- Read subtrees after the first `count`. -/
def readList (complete : Bool) (g : Grammar) (s : Symbol) :
    Nat → List Json → Except Failure (List Tree)
  | _, [] => .ok []
  | count, item :: items => do
    let c ← read complete g item
    roomFor s count
    let cs ← readList complete g s (count + 1) items
    return c :: cs

end

/-- Read a tree, with the number of children of every node checked. -/
def ofJson (g : Grammar) (data : Json) : Except Failure Tree := read true g data

end Tree

/-! ## 3. Whole documents -/

/-- The document of a tree that may be empty: the root, its length and depth, and its text. -/
def treeDocument (t : Option Tree) : Json :=
  .object [("root", (t.map Tree.toJson).getD .null), ("length", .int (treeLength t)),
    ("depth", .int (treeDepth t)), ("expression", .string (treeText t))]

/-- A tree that may be empty, from its document. -/
def treeOfDocument (g : Grammar) : Json → Except Failure (Option Tree)
  | .object fields =>
    match Dictionary.value? fields "root" with
    | none => .ok none
    | some .null => .ok none
    | some root => (Tree.ofJson g root).map some
  | _ => .error .noSuchMember

/-- The text of a tree's document. -/
def treeJson (t : Option Tree) : String := (treeDocument t).write

/-- A tree from the text of its document. -/
def treeOfJson (g : Grammar) (text : String) : Except Failure (Option Tree) := do
  let document ← (Json.read text).mapError .document
  treeOfDocument g document

end FormulaEvolution
