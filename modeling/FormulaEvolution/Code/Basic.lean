/-
# Compiled expressions

The expressions that trees are compiled to: numbers, names, variables, signs, calls of primitives,
and calls of nodes that have no text of their own.  Running one gives what evaluating the tree
gives; a name that means nothing is found out when it is run.
-/
import FormulaEvolution.Primitive

namespace FormulaEvolution

/-- A sign between two expressions. -/
inductive Sign where
  | plus
  | minus
  | times
  | over
  deriving DecidableEq, Repr

/-- What a sign does to the numbers of one row. -/
def Sign.apply : Sign → Float → Float → Float
  | .plus => (· + ·)
  | .minus => (· - ·)
  | .times => (· * ·)
  | .over => (· / ·)

/-- What a sign does to values. -/
def Sign.run (s : Sign) (x y : Value) : Except Failure Value :=
  (Kernel.binary s.apply).run [x, y]

/-- A compiled expression. -/
inductive Code where
  | number (x : Float)
  | name (n : String)
  | input (n : String)
  | negated (e : Code)
  | signed (s : Sign) (x y : Code)
  | call (f : String) (args : List Code)
  | node (index : Nat) (args : List Code)

namespace Code

/-! ## 1. Names -/

/-- The name that holds the values of variables. -/
def variablesName : String := "variables"

/-- The name that holds the nodes without a text. -/
def nodesName : String := "_nodes"

/-- The name of the call of a node without a text. -/
def nodeCallName : String := "_rowwise"

/-- Names that mean something and are neither numbers nor primitives. -/
def reserved : List String := [variablesName, nodesName, nodeCallName, "__builtins__"]

/-- A name that is used by itself is no value; most mean nothing at all. -/
def nameFailure (n : String) : Failure :=
  if (Primitive.ofShortName? n).isSome || reserved.contains n then .mistyped .other
  else .undefinedName n

/-! ## 2. Running -/

mutual

/-- Run an expression.  `call` applies the node of an index to values. -/
def run (call : Nat → List Value → Except Failure Value) (b : Bindings) :
    Code → Except Failure Value
  | .number x => .ok (.number x)
  | .name n => .error (nameFailure n)
  | .input n =>
    match b.value? n with
    | some v => .ok v
    | none => .error (.absentKey n)
  | .negated e => do
    let v ← run call b e
    (Kernel.unary fun x => -x).run [v]
  | .signed s x y => do
    let v ← run call b x
    let w ← run call b y
    s.run v w
  | .call f args =>
    match Primitive.ofShortName? f with
    | some p => do
      let vs ← runAll call b args
      p.run vs
    | none =>
      if reserved.contains f then do
        let _ ← runAll call b args
        .error (.mistyped .other)
      else .error (.undefinedName f)
  | .node index args => do
    let vs ← runAll call b args
    call index vs

/-- Run expressions one after the other. -/
def runAll (call : Nat → List Value → Except Failure Value) (b : Bindings) :
    List Code → Except Failure (List Value)
  | [] => .ok []
  | e :: es => do
    let v ← run call b e
    let vs ← runAll call b es
    return v :: vs

end

/-! ## 3. Facts -/

theorem runAll_nil (call : Nat → List Value → Except Failure Value) (b : Bindings) :
    runAll call b [] = .ok [] := by
  simp [runAll]

end Code
end FormulaEvolution
