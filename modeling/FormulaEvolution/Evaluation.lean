/-
# The value of a tree

A tree is evaluated from the leaves to the root: the children of a node first, from left to right,
then the node itself.  With variables bound to numbers the value is that of one row; with variables
bound to columns it is that of all rows at once.

An operation that can be compiled works on columns as it does on numbers.  Any other one is applied
to one row after the other.
-/
import FormulaEvolution.Tree.Basic

namespace FormulaEvolution
namespace Tree

/-! ## 1. One node -/

/-- The value of a node, given those of its children. -/
def nodeValue (b : Bindings) (t : Tree) (args : List Value) : Except Failure Value :=
  match t with
  | .constant _ value => .ok (.number value)
  | .variable s =>
    match b.value? s.name with
    | some v => .ok v
    | none => .error (.evaluation (.unboundVariable s.name))
  | .node s _ =>
    if s.isFunctional then s.evaluate args else .error (.evaluation (.unsupported s.name))

/-- The value of a node on the numbers of one row. -/
def rowValue (b : Bindings) (t : Tree) (row : List Float) : Except Failure Float := do
  let v ← nodeValue b t (row.map .number)
  v.toNumber

/-- The value of a node, row by row if there are columns among those of its children. -/
def nodeValueByRow (b : Bindings) (t : Tree) (args : List Value) : Except Failure Value :=
  if Value.lengths args = [] then nodeValue b t args else Value.liftM (rowValue b t) args

/-- Whether a node is evaluated as a whole: leaves are, and what can be compiled. -/
def isWhole (t : Tree) : Bool := t.isLeaf || t.symbol.isCompilable

/-- The value of a node that an evaluation from the leaves to the root gives it. -/
def combine (b : Bindings) (t : Tree) (args : List Value) : Except Failure Value :=
  if t.isWhole then nodeValue b t args else nodeValueByRow b t args

/-! ## 2. All nodes -/

mutual

/-- The value of a tree. -/
def value (b : Bindings) : Tree → Except Failure Value
  | .constant s v => combine b (.constant s v) []
  | .variable s => combine b (.variable s) []
  | .node s cs => do
    let args ← values b cs
    combine b (.node s cs) args

/-- The values of several trees, up to the first that has none. -/
def values (b : Bindings) : List Tree → Except Failure (List Value)
  | [] => .ok []
  | c :: cs => do
    let v ← value b c
    let vs ← values b cs
    return v :: vs

end

end Tree

/-! ## 3. Results -/

/-- The tree must have a root. -/
def expectRoot (t : Option Tree) : Except Failure Tree :=
  match t with
  | some t => .ok t
  | none => .error (.evaluation .noRoot)

/-- The number that a tree evaluates to. -/
def evaluate (t : Option Tree) (b : Bindings) : Except Failure Float := do
  let t ← expectRoot t
  let v ← t.value b
  v.toNumber

/-- The column of `rows` numbers that a tree evaluates to. -/
def evaluateColumns (t : Option Tree) (b : Bindings) (rows : Nat) : Except Failure (List Float) := do
  let t ← expectRoot t
  let v ← t.value b
  return v.toColumn rows

end FormulaEvolution
