/-
# Primitives

The numeric operations that expressions are made of.  Each is safe on every double: a degenerate
denominator, an argument outside the domain, or one so large that the result would overflow, gives
a fixed answer.

Comparisons with a value that is no number are false.  `lesser` and `greater` keep their first
argument unless the second one is strictly beyond it.
-/
import FormulaEvolution.Value

namespace FormulaEvolution

/-! ## 1. Thresholds -/

/-- Denominators below this magnitude count as zero. -/
def divisionEpsilon : Float := 1e-12

/-- Arguments above this make exponentials overflow. -/
def exponentClip : Float := 700.0

/-- The second argument if it is strictly smaller, else the first. -/
def lesser (a b : Float) : Float := if b < a then b else a

/-- The second argument if it is strictly greater, else the first. -/
def greater (a b : Float) : Float := if b > a then b else a

/-- An argument that exponentials can bear. -/
def clipped (x : Float) : Float := greater (-exponentClip) (lesser x exponentClip)

/-! ## 2. Numbers to numbers -/

/-- Divide; a denominator that counts as zero gives `fallback`. -/
def guardedDivision (fallback a b : Float) : Float :=
  if b.abs < divisionEpsilon then fallback else a / b

/-- Apply a function to finite arguments; others give zero. -/
def onFinite (f : Float → Float) (x : Float) : Float := if x.isFinite then f x else 0.0

/-- Apply a function to numbers; what is no number gives zero. -/
def onNumbers (f : Float → Float) (x : Float) : Float := if x.isNaN then 0.0 else f x

/-- The logarithm of the magnitude, zero near zero. -/
def guardedLog (x : Float) : Float :=
  if x.abs > divisionEpsilon then x.abs.log else 0.0

/-- The logistic function. -/
def logistic (x : Float) : Float := 1.0 / (1.0 + (-clipped x).exp)

/-- One for true, zero for false. -/
def indicator (b : Bool) : Float := if b then 1.0 else 0.0

/-- The sign as minus one, zero or one. -/
def signOf (x : Float) : Float := if x > 0.0 then 1.0 else if x < 0.0 then -1.0 else 0.0

/-- `value` within bounds; `low` wins when the bounds cross. -/
def clipTo (value low high : Float) : Float := greater low (lesser value high)

/-! ## 3. Lists of numbers to numbers -/

/-- Sum from zero, left to right. -/
def total (xs : List Float) : Float := xs.foldl (· + ·) 0.0

/-- The mean. -/
def mean (xs : List Float) : Float := total xs / xs.length.toFloat

/-- The mean of the squared distances to the mean. -/
def variance (xs : List Float) : Float :=
  let m := mean xs
  mean (xs.map fun x => (x - m) * (x - m))

/-- The middle value, or the mean of the two middle values, in rising order. -/
def median (xs : List Float) : Float :=
  if xs.any Float.isNaN then Number.notANumber
  else
    let sorted := xs.mergeSort (fun a b => a <= b)
    let upper := sorted.getD (sorted.length / 2) 0.0
    if sorted.length % 2 = 1 then total [upper]
    else (sorted.getD (sorted.length / 2 - 1) 0.0 + upper) / 2.0

/-! ## 4. Kernels -/

/-- An operation on the numbers of one row, with how many it takes. -/
inductive Kernel where
  | unary (f : Float → Float)
  | binary (f : Float → Float → Float)
  | ternary (f : Float → Float → Float → Float)
  | variadic (f : List Float → Float)

namespace Kernel

/-- How many arguments a kernel takes, if that is fixed. -/
def arity? : Kernel → Option Nat
  | .unary _ => some 1
  | .binary _ => some 2
  | .ternary _ => some 3
  | .variadic _ => none

/-- The result on the numbers of one row; arguments that are missing count as zero. -/
def apply : Kernel → List Float → Float
  | .unary f, xs => f (xs.getD 0 0.0)
  | .binary f, xs => f (xs.getD 0 0.0) (xs.getD 1 0.0)
  | .ternary f, xs => f (xs.getD 0 0.0) (xs.getD 1 0.0) (xs.getD 2 0.0)
  | .variadic f, xs => f xs

/-- Apply a kernel to values.  A wrong count of arguments is a fault of type; a kernel for any
count needs one at least. -/
def run (k : Kernel) (args : List Value) : Except Failure Value :=
  match k.arity? with
  | some n => if args.length = n then Value.lift k.apply args else .error (.mistyped .other)
  | none => if args = [] then .error (.invalid .nothingToStack) else Value.lift k.apply args

/-- Apply a kernel to the children of a node: it takes as many as it needs, from the front. -/
def runOnChildren (k : Kernel) (args : List Value) : Except Failure Value :=
  match k.arity? with
  | some n => if args.length < n then .error (.range .list) else k.run (args.take n)
  | none => k.run args

end Kernel

/-! ## 5. The primitives -/

/-- The operations that compiled expressions name. -/
inductive Primitive where
  | protectedDivision
  | safeDivision
  | squareRoot
  | sine
  | cosine
  | tangent
  | exponential
  | logarithm
  | hyperbolicSine
  | hyperbolicCosine
  | hyperbolicTangent
  | sigmoid
  | absolute
  | square
  | greaterThan
  | lessThan
  | sign
  | clip
  | percentChange
  | normalize
  | zScore
  | mean
  | variance
  | median
  deriving DecidableEq, Repr

namespace Primitive

/-- All primitives. -/
def all : List Primitive :=
  [.protectedDivision, .safeDivision, .squareRoot, .sine, .cosine, .tangent, .exponential,
   .logarithm, .hyperbolicSine, .hyperbolicCosine, .hyperbolicTangent, .sigmoid, .absolute,
   .square, .greaterThan, .lessThan, .sign, .clip, .percentChange, .normalize, .zScore, .mean,
   .variance, .median]

/-- The name of a primitive in compiled expressions. -/
def shortName : Primitive → String
  | .protectedDivision => "_pdiv"
  | .safeDivision => "_sdiv"
  | .squareRoot => "_psqrt"
  | .sine => "_psin"
  | .cosine => "_pcos"
  | .tangent => "_ptan"
  | .exponential => "_pexp"
  | .logarithm => "_plog"
  | .hyperbolicSine => "_psinh"
  | .hyperbolicCosine => "_pcosh"
  | .hyperbolicTangent => "_tanh"
  | .sigmoid => "_sigmoid"
  | .absolute => "_abs"
  | .square => "_square"
  | .greaterThan => "_gt"
  | .lessThan => "_lt"
  | .sign => "_sign"
  | .clip => "_clip"
  | .percentChange => "_pchange"
  | .normalize => "_normalize"
  | .zScore => "_zscore"
  | .mean => "_mean"
  | .variance => "_var"
  | .median => "_median"

/-- The primitive of a name. -/
def ofShortName? (name : String) : Option Primitive := all.find? (·.shortName = name)

/-- What a primitive does to the numbers of one row. -/
def kernel : Primitive → Kernel
  | .protectedDivision => .binary (guardedDivision 0.0)
  | .safeDivision => .binary (guardedDivision Number.largest)
  | .squareRoot => .unary fun x => if x < 0.0 then 0.0 else x.sqrt
  | .sine => .unary (onFinite Float.sin)
  | .cosine => .unary (onFinite Float.cos)
  | .tangent => .unary (onFinite Float.tan)
  | .exponential => .unary (onNumbers fun x => (lesser x exponentClip).exp)
  | .logarithm => .unary guardedLog
  | .hyperbolicSine => .unary (onNumbers fun x => (clipped x).sinh)
  | .hyperbolicCosine => .unary (onNumbers fun x => (clipped x).cosh)
  | .hyperbolicTangent => .unary Float.tanh
  | .sigmoid => .unary (onNumbers logistic)
  | .absolute => .unary Float.abs
  | .square => .unary fun x => x * x
  | .greaterThan => .binary fun a b => indicator (a > b)
  | .lessThan => .binary fun a b => indicator (a < b)
  | .sign => .unary signOf
  | .clip => .ternary clipTo
  | .percentChange => .binary fun new old => guardedDivision 0.0 (new - old) old
  | .normalize => .ternary fun value low high => guardedDivision 0.5 (value - low) (high - low)
  | .zScore => .ternary fun value center spread => guardedDivision 0.0 (value - center) spread
  | .mean => .variadic FormulaEvolution.mean
  | .variance => .variadic FormulaEvolution.variance
  | .median => .variadic FormulaEvolution.median

/-- Apply a primitive to values. -/
def run (p : Primitive) (args : List Value) : Except Failure Value := p.kernel.run args

/-- Every primitive is listed. -/
theorem mem_all (p : Primitive) : p ∈ all := by cases p <;> decide

/-- A primitive is found under its name. -/
theorem ofShortName?_shortName (p : Primitive) : ofShortName? p.shortName = some p := by cases p <;> decide

end Primitive

/-- Addition, subtraction and multiplication, which compiled expressions write as signs. -/
inductive Arithmetic where
  | addition
  | subtraction
  | multiplication
  deriving DecidableEq, Repr

/-- What a sign does to the numbers of one row. -/
def Arithmetic.kernel : Arithmetic → Kernel
  | .addition => .binary (· + ·)
  | .subtraction => .binary (· - ·)
  | .multiplication => .binary (· * ·)

end FormulaEvolution
