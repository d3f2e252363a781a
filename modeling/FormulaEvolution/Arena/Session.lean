/-
# Sessions

A session works on an arena step by step.  Nodes and trees go by names that the steps give them, and
a name can also stand for nothing, as the root of a tree without one does.

A step that fails leaves the arena and the names alone, but for lengths and depths that nodes have
come to remember.
-/
import FormulaEvolution.Arena.Copy
import FormulaEvolution.Compilation

namespace FormulaEvolution

/-! ## 1. Names -/

/-- What a name stands for. -/
inductive Item where
  | node (i : NodeId)
  | tree (t : TreeId)
  | nothing
  deriving DecidableEq

/-- A name, or nothing by itself. -/
abbrev Ref := Option String

/-- An arena, the symbols that it is worked on with, and names. -/
structure Session where
  grammar : Grammar
  arena : Arena := {}
  names : Dictionary Item := []

namespace Session

/-! ## 2. Steps and replies -/

/-- A step.  `into` is the name that its result gets; a draw is a double between zero and one. -/
inductive Step where
  | plain (into symbol : String)
  | constant (into : String) (value : Float) (symbol : String)
  | variable (into symbol : String)
  | create (into symbol : String) (draw : Option Float)
  | plant (into : String) (root : Ref)
  | load (into : String) (data : Json)
  | add (parent child : Ref)
  | insert (parent : Ref) (index : Int) (child : Ref)
  | remove (parent : Ref) (index : Int)
  | replace (parent : Ref) (index : Int) (child : Ref)
  | change (node : Ref) (symbol : String)
  | check (target : Ref)
  | setRoot (tree root : Ref)
  | root (tree : Ref) (into : String)
  | replaceNode (tree old new : Ref)
  | copy (target : Ref) (into : String)
  | child (parent : Ref) (index : Int) (into : String)
  | indexOf (parent child : Ref)
  | level (node : Ref)
  | parent (node : Ref)
  | children (node : Ref)
  | preorder (target : Ref)
  | postorder (target : Ref)
  | length (target : Ref)
  | depth (target : Ref)
  | text (target : Ref)
  | describe (target : Ref)
  | document (target : Ref)
  | leaf (node : Ref)
  | same (first second : Ref)
  | setValue (node : Ref) (value : Float)
  | value (node : Ref)
  | shake (node : Ref) (draw factor : Float)
  | resetValue (node : Ref) (draw : Float)
  | evaluate (node : Ref) (args : List Float) (row : Bindings)
  | interpret (tree : Ref) (row : Bindings)
  | compile (tree : Ref)

/-- What a step answers with.  A number is `held` by a node or `measured` by an evaluation. -/
inductive Reply where
  | done
  | nothing
  | count (n : Int)
  | flag (b : Bool)
  | text (s : String)
  | texts (ss : List String)
  | leaf (isLeaf : Bool) (children : Nat)
  | held (x : Float)
  | measured (x : Float)
  | document (d : Json)

/-- Work in a session: it may fail. -/
abbrev Work := ExceptT Failure (StateM Session)

/-! ## 3. Reading names -/

/-- Give a name to an item. -/
def store (name : String) (item : Item) : Work Unit :=
  modify fun s => { s with names := s.names.bind name item }

/-- What a name stands for. -/
def item (r : Ref) : Work Item := do
  match r with
  | none => return .nothing
  | some name =>
    match (← get).names.value? name with
    | some item => return item
    | none => throw (.absentKey name)

/-- The node that a name stands for; only nodes will do. -/
def node (r : Ref) : Work NodeId := do
  match ← item r with
  | .node i => return i
  | _ => throw .noSuchMember

/-- The tree that a name stands for; only trees will do. -/
def tree (r : Ref) : Work TreeId := do
  match ← item r with
  | .tree t => return t
  | _ => throw .noSuchMember

/-- The node that a name stands for, or nothing. -/
def node? (r : Ref) : Work (Option NodeId) := do
  match ← item r with
  | .node i => return some i
  | .nothing => return none
  | .tree _ => throw .noSuchMember

/-- The node that a name stands for, or the root of the tree. -/
def top? (r : Ref) : Work (Option NodeId) := do
  match ← item r with
  | .node i => return some i
  | .tree t => return (← get).arena.root? t
  | .nothing => throw .noSuchMember

/-- The first name of a node, in the order in which names came. -/
def nameOf (s : Session) (i : NodeId) : String :=
  ((s.names.find? (·.2 = .node i)).map (·.1)).getD "?"

/-- The symbol of a name, which must be there. -/
def symbol (name : String) : Work Symbol := do
  match (← get).grammar.symbol? name with
  | some s => return s
  | none => throw .noSuchMember

/-! ## 4. Working on the arena -/

/-- Fail as a computation without a session fails. -/
def ofExcept {α : Type} (r : Except Failure α) : Work α := fun s => (r, s)

/-- Look at the arena. -/
def look {α : Type} (f : Arena → Except Failure α) : Work α := do ofExcept (f (← get).arena)

/-- Change the arena, with a result. -/
def changeWith {α : Type} (f : Arena → Except Failure (α × Arena)) : Work α := do
  let (result, arena) ← look f
  modify fun s => { s with arena }
  return result

/-- Change the arena. -/
def change (f : Arena → Except Failure Arena) : Work Reply := do
  changeWith fun a => (f a).map ((), ·)
  return .done

/-- Ask the arena. -/
def ask {α : Type} (q : Arena.Asking α) : Work α := fun s =>
  let (result, arena) := q.run s.arena
  (result, { s with arena })

/-- Add a node and name it. -/
def addNode (into : String) (n : Node) : Work Reply := do
  let i ← changeWith fun a => .ok (a.allocate n)
  store into (.node i)
  return .done

/-- The names of the symbols of nodes. -/
def symbolNames (is : List NodeId) : Work Reply := do
  let a := (← get).arena
  return .texts (is.filterMap fun i => (a.node? i).map (·.symbol.name))

/-- The text of an item. -/
def textOf (item : Item) : Work String := do
  match item with
  | .node i => return (← look (·.toTree i)).text
  | .tree t => look (·.treeTextOf t)
  | .nothing => return "None"

/-- The tree that a name stands for, as a value; nothing will do as well. -/
def treeValue (r : Ref) : Work (Option Tree) := do
  match ← item r with
  | .tree t => look (·.toTree? t)
  | .nothing => return none
  | .node _ => throw .noSuchMember

/-- A node without its children, as a value. -/
def shallow (n : Node) : Tree :=
  match n.form with
  | .constant v => .constant n.symbol v
  | .variable => .variable n.symbol
  | .plain => .node n.symbol []

/-- A number between the bounds of a symbol's constants. -/
def between (range : Float × Float) (draw : Float) : Float :=
  range.1 + (range.2 - range.1) * draw

/-! ## 5. Performing steps -/

/-- Steps that make something or change it. -/
def performChange : Step → Work Reply
  | .plain into name => do
    addNode into (← ofExcept (Node.makePlain ((← get).grammar.symbol? name)))
  | .constant into value name => do addNode into (← ofExcept (Node.makeConstant (← symbol name) value))
  | .variable into name => do addNode into (← ofExcept (Node.makeVariable (← symbol name)))
  | .create into name draw => do
    let s ← symbol name
    addNode into (Node.ofSymbol s ((draw.map (between s.range)).getD 0.0))
  | .plant into root => do
    let root ← node? root
    let t ← changeWith fun a => .ok (a.newTree root)
    store into (.tree t)
    return .done
  | .load into data => do
    let t ← ofExcept (Tree.ofJson (← get).grammar data)
    let i ← changeWith fun a => .ok (a.plant none t)
    store into (.node i)
    return .done
  | .add p c => do
    let p ← node p
    let c ← node? c
    change (·.addChild p c)
  | .insert p index c => do
    let p ← node p
    let c ← node? c
    change (·.insertChild p index c)
  | .remove p index => do
    let p ← node p
    let c ← changeWith (·.removeChild p index)
    return .text ((← get).nameOf c)
  | .replace p index c => do
    let p ← node p
    let c ← node? c
    let old ← changeWith (·.replaceChild p index c)
    return .text ((← get).nameOf old)
  | .change i name => do
    let i ← node i
    let s ← symbol name
    change (·.changeSymbol i s)
  | .setRoot t i => do
    let t ← tree t
    let i ← node? i
    change (·.setRoot t i)
  | .root t into => do
    let t ← tree t
    store into (((← get).arena.root? t).elim .nothing .node)
    return .done
  | .replaceNode t old new => do
    let t ← tree t
    let old ← node? old
    let new ← node? new
    change (·.replaceNode t old new)
  | .copy r into => do
    match ← item r with
    | .node i => store into (.node (← changeWith fun a => .ok (a.copyNode i)))
    | .tree t => store into (.tree (← changeWith fun a => .ok (a.copyTree t)))
    | .nothing => throw .noSuchMember
    return .done
  | .child p index into => do
    let p ← node p
    store into (.node (← look (·.childOf p index)))
    return .done
  | .setValue i value => do
    let i ← node i
    change fun a => .ok (a.setValue i value)
  | .shake i draw factor => do
    let i ← node i
    let value ← look (·.valueOf i)
    change fun a => .ok (a.setValue i (value + between (-factor, factor) draw))
  | .resetValue i draw => do
    let i ← node i
    let _ ← look (·.valueOf i)
    let s := (← look (·.expect i)).symbol
    change fun a => .ok (a.setValue i (between s.range draw))
  | _ => return .nothing

/-- Perform a step. -/
def perform : Step → Work Reply
  | .check r => do
    match ← top? r with
    | some i => look (·.check i)
    | none => pure ()
    return .done
  | .indexOf p c => do
    let p ← node p
    let c ← node? c
    return .count (((c.bind ((← get).arena.indexOfChild? p ·)).map Int.ofNat).getD (-1))
  | .level i => do
    let i ← node i
    return .count ((← get).arena.level i)
  | .parent i => do
    let i ← node i
    let s ← get
    return ((s.arena.parentOf i).map fun p => .text (s.nameOf p)).getD .nothing
  | .children i => do
    let i ← node i
    let s ← get
    return .texts ((s.arena.childrenOf i).map s.nameOf)
  | .preorder r => do
    match ← top? r with
    | some i => symbolNames (← look (·.preorder i))
    | none => return .texts []
  | .postorder r => do
    match ← top? r with
    | some i => symbolNames (← look (·.postorder i))
    | none => return .texts []
  | .length r => do
    match ← item r with
    | .node i => return .count (← ask (Arena.askLength i))
    | .tree t => return .count (← ask (Arena.askTreeLength t))
    | .nothing => throw .noSuchMember
  | .depth r => do
    match ← item r with
    | .node i => return .count (← ask (Arena.askDepth i))
    | .tree t => return .count (← ask (Arena.askTreeDepth t))
    | .nothing => throw .noSuchMember
  | .text r => do return .text (← textOf (← item r))
  | .describe r => do
    match ← item r with
    | .node i => return .text (← look (·.expect i)).describe
    | .tree t => return .text (← ask (Arena.askDescription t))
    | .nothing => return .text "None"
  | .document r => do
    match ← item r with
    | .node i => return .document (← look (·.toTree i)).toJson
    | .tree t => return .document (← ask (Arena.askDocument t))
    | .nothing => throw .noSuchMember
  | .leaf i => do
    let i ← node i
    let cs := (← get).arena.childrenOf i
    return .leaf cs.isEmpty cs.length
  | .same r q => do
    let first ← item r
    let second ← item q
    return .flag (first = second)
  | .value i => do
    let i ← node i
    return .held (← look (·.valueOf i))
  | .evaluate i args row => do
    let i ← node i
    let n ← look (·.expect i)
    let v ← ofExcept (Tree.nodeValue row (shallow n) (args.map .number))
    return .measured (← ofExcept v.toNumber)
  | .interpret r row => do
    let t ← treeValue r
    return .measured (← ofExcept (FormulaEvolution.evaluate t row))
  | .compile r => do
    let t ← treeValue r
    let x ← ofExcept (FormulaEvolution.compile t)
    return (x.source?.map .text).getD .nothing
  | step => performChange step

/-- Perform a step in a session. -/
def advance (s : Session) (step : Step) : Except Failure Reply × Session := (perform step).run s

/-- The text of what a name stands for, if the name is in use. -/
def watch (s : Session) (name : String) : Option (Except Failure String) :=
  (s.names.value? name).map fun item => ((textOf item).run s).1

end Session
end FormulaEvolution
