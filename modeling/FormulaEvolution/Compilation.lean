/-
# Compiling trees

A tree is written as one text, by the templates of its symbols, and the text is read as an
expression that is run without looking at the tree again.  Finite constants are written as numbers;
a node without a template is called by its index among such nodes.

A text that is no expression, or one that is nested too deeply, is not run: the tree is evaluated
instead.
-/
import FormulaEvolution.Code.Reader
import FormulaEvolution.Evaluation

namespace FormulaEvolution

/-! ## 1. Writing -/

/-- The call of the node of an index. -/
def nodeCallText (index : Nat) (args : List (List Char)) : List Char :=
  Code.nodeCallName.toList ++ '(' :: (Code.nodesName.toList ++ '[' ::
    (Nat.toDigits 10 index ++ ']' :: ',' :: ' ' :: '[' ::
      (Text.join [',', ' '] args ++ ']' :: ',' :: ' ' :: (Code.variablesName.toList ++ [')']))))

/-- The text of a finite constant. -/
def constantText (value : Float) : List Char :=
  '(' :: ((Number.exactText value).toList ++ [')'])

namespace Tree

/-- Write a node over the texts of its children: by its template, or else as a call, before which
the node joins those that are called. -/
def emitNode (t : Tree) (args : List (List Char)) (nodes : List Tree) :
    Except Failure (List Char × List Tree) :=
  if t.symbol.isCompilable then (t.symbol.emit args).map fun text => (text, nodes)
  else .ok (nodeCallText nodes.length args, nodes ++ [t])

mutual

/-- Write a tree; `nodes` are the nodes that are called so far. -/
def emit : Tree → List Tree → Except Failure (List Char × List Tree)
  | .constant s value, nodes =>
    if Number.isFinite value then .ok (constantText value, nodes)
    else emitNode (.constant s value) [] nodes
  | .variable s, nodes => emitNode (.variable s) [] nodes
  | .node s cs, nodes => do
    let (args, nodes) ← emitAll cs nodes
    emitNode (.node s cs) args nodes

/-- Write several trees. -/
def emitAll : List Tree → List Tree → Except Failure (List (List Char) × List Tree)
  | [], nodes => .ok ([], nodes)
  | c :: cs, nodes => do
    let (text, nodes) ← emit c nodes
    let (texts, nodes) ← emitAll cs nodes
    return (text :: texts, nodes)

end

end Tree

/-! ## 2. Expressions -/

/-- What a tree is compiled to: an expression with its text and the nodes that it calls, or the
tree itself. -/
inductive Expression where
  | compiled (source : List Char) (code : Code) (nodes : List Tree)
  | interpreted (tree : Option Tree)

/-- Compile a tree.  Failures are those of its templates. -/
def compile (t : Option Tree) : Except Failure Expression := do
  let t ← expectRoot t
  let (source, nodes) ← t.emit []
  match Code.ofText? source with
  | some code => return .compiled source code nodes
  | none => return .interpreted (some t)

namespace Expression

/-- A key that is looked up in vain is the name of a variable that is not bound. -/
def explain : Failure → Failure
  | .absentKey key => .evaluation (.unboundKey key)
  | .absentValue shown => .evaluation (.unboundValue shown)
  | failure => failure

/-- Apply one of the nodes that are called. -/
def callNode (nodes : List Tree) (b : Bindings) (index : Nat) (args : List Value) :
    Except Failure Value :=
  match nodes[index]? with
  | some t => Tree.nodeValueByRow b t args
  | none => .error (.range .list)

/-- The value of a compiled expression. -/
def runCode (code : Code) (nodes : List Tree) (b : Bindings) : Except Failure Value :=
  (code.run (callNode nodes b) b).mapError explain

/-- The number that an expression evaluates to. -/
def evaluate (e : Expression) (b : Bindings) : Except Failure Float :=
  match e with
  | .compiled _ code nodes => do
    let v ← runCode code nodes b
    v.toNumber
  | .interpreted t => FormulaEvolution.evaluate t b

/-- The column of `rows` numbers that an expression evaluates to. -/
def evaluateColumns (e : Expression) (b : Bindings) (rows : Nat) : Except Failure (List Float) :=
  match e with
  | .compiled _ code nodes => do
    let v ← runCode code nodes b
    return v.toColumn rows
  | .interpreted t => FormulaEvolution.evaluateColumns t b rows

/-- The text of a compiled expression. -/
def source? : Expression → Option String
  | .compiled source _ _ => some (String.ofList source)
  | .interpreted _ => none

/-- How a compiled expression is shown. -/
def describe? (e : Expression) : Option String :=
  e.source?.map fun source => "CompiledExpression(" ++ Text.Quoted.quote source ++ ")"

end Expression
end FormulaEvolution
