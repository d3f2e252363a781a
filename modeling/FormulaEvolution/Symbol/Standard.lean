/-
# The standard symbols

Eight sets of symbols, from arithmetic to statistics.  Every one of them has an operation and a
template.  A symbol that takes any count of children takes at least one and at most
`variadicLimit`.
-/
import FormulaEvolution.Primitive
import FormulaEvolution.Symbol.Basic

namespace FormulaEvolution

namespace Symbol

/-! ## 1. Symbols from kernels -/

/-- Most children of a symbol that takes any count of them. -/
def variadicLimit : Nat := 255

/-- The bounds of a kernel. -/
def boundsOf (k : Kernel) : Nat × Nat :=
  match k.arity? with
  | some n => (n, n)
  | none => (1, variadicLimit)

theorem boundsOf_le (k : Kernel) : (boundsOf k).1 ≤ (boundsOf k).2 := by
  cases k <;> simp [boundsOf, Kernel.arity?, variadicLimit]

/-- A symbol for a kernel. -/
def ofKernel (name : String) (k : Kernel) (template : Template) (description : String) :
    Symbol where
  name
  least := (boundsOf k).1
  most := (boundsOf k).2
  operation := some k.runOnChildren
  template := some template
  description
  least_le_most := boundsOf_le k

/-- A symbol for a primitive, written as a call. -/
def ofPrimitive (name : String) (p : Primitive) (description : String) : Symbol :=
  ofKernel name p.kernel (.call p.shortName) description

/-- A symbol for a sign, written between its children. -/
def ofArithmetic (name : String) (a : Arithmetic) (template description : String) : Symbol :=
  ofKernel name a.kernel (.text template) description

/-! ## 2. The sets -/

/-- Addition, subtraction, multiplication and protected division. -/
def basicSet : List Symbol :=
  [ofArithmetic "Addition" .addition "(\x7b0\x7d + \x7b1\x7d)" "Addition (+)",
   ofArithmetic "Subtraction" .subtraction "(\x7b0\x7d - \x7b1\x7d)" "Subtraction (-)",
   ofArithmetic "Multiplication" .multiplication "(\x7b0\x7d * \x7b1\x7d)" "Multiplication (*)",
   ofPrimitive "ProtectedDivision" .protectedDivision
    "Division returning 0 for near-zero denominators"]

/-- Magnitude, squares, roots and safe division. -/
def extendedSet : List Symbol :=
  [ofPrimitive "Abs" .absolute "Absolute value",
   ofPrimitive "Square" .square "x squared",
   ofPrimitive "SquareRoot" .squareRoot "Square root, 0 for negative input",
   ofPrimitive "SafeDivision" .safeDivision
    "Division returning the largest float for near-zero denominators"]

/-- Sine, cosine, exponential and logarithm. -/
def advancedSet : List Symbol :=
  [ofPrimitive "Sine" .sine "Sine",
   ofPrimitive "Cosine" .cosine "Cosine",
   ofPrimitive "Exponential" .exponential "Exponential, clipped against overflow",
   ofPrimitive "Logarithm" .logarithm "Natural log of |x|, 0 near zero"]

/-- Tangent, hyperbolic functions and the logistic function. -/
def trigonometricSet : List Symbol :=
  [ofPrimitive "Tangent" .tangent "Tangent",
   ofPrimitive "HyperbolicSine" .hyperbolicSine "Hyperbolic sine",
   ofPrimitive "HyperbolicCosine" .hyperbolicCosine "Hyperbolic cosine",
   ofPrimitive "HyperbolicTangent" .hyperbolicTangent "Hyperbolic tangent",
   ofPrimitive "Sigmoid" .sigmoid "Logistic function 1 / (1 + e^-x)"]

/-- Comparisons as one or zero, and the sign. -/
def comparisonSet : List Symbol :=
  [ofPrimitive "GreaterThan" .greaterThan "1 if a > b, else 0",
   ofPrimitive "LessThan" .lessThan "1 if a < b, else 0",
   ofPrimitive "Sign" .sign "Sign of x (-1, 0, +1)"]

/-- Hard and soft bounds. -/
def boundingSet : List Symbol :=
  [ofPrimitive "Clip" .clip "Clip(value, min, max)",
   ofPrimitive "SoftClip" .hyperbolicTangent "Soft clipping via tanh"]

/-- Relative changes and scales. -/
def ratioSet : List Symbol :=
  [ofPrimitive "PercentChange" .percentChange "(new - old) / old, 0 for a zero base",
   ofPrimitive "Normalize" .normalize "Min-max normalization (x - min) / (max - min)",
   ofPrimitive "ZScore" .zScore "(x - mean) / std"]

/-- Statistics over any count of children. -/
def statisticsSet : List Symbol :=
  [ofPrimitive "Mean" .mean "Mean of the children",
   ofPrimitive "Variance" .variance "Population variance of the children",
   ofPrimitive "Median" .median "Median of the children"]

end Symbol

/-- A set of standard symbols. -/
inductive SymbolSet where
  | basic
  | extended
  | advanced
  | trigonometric
  | comparison
  | bounding
  | ratio
  | statistics
  deriving DecidableEq, Repr

namespace SymbolSet

/-- All sets, in order. -/
def all : List SymbolSet :=
  [.basic, .extended, .advanced, .trigonometric, .comparison, .bounding, .ratio, .statistics]

/-- The name of a set. -/
def name : SymbolSet → String
  | .basic => "basic"
  | .extended => "extended"
  | .advanced => "advanced"
  | .trigonometric => "trigonometric"
  | .comparison => "comparison"
  | .bounding => "bounding"
  | .ratio => "ratio"
  | .statistics => "statistics"

/-- The symbols of a set. -/
def symbols : SymbolSet → List Symbol
  | .basic => Symbol.basicSet
  | .extended => Symbol.extendedSet
  | .advanced => Symbol.advancedSet
  | .trigonometric => Symbol.trigonometricSet
  | .comparison => Symbol.comparisonSet
  | .bounding => Symbol.boundingSet
  | .ratio => Symbol.ratioSet
  | .statistics => Symbol.statisticsSet

/-- The set of a name. -/
def ofName? (name : String) : Option SymbolSet := all.find? (·.name = name)

end SymbolSet

/-- All standard symbols. -/
def standardSymbols : List Symbol := SymbolSet.all.flatMap SymbolSet.symbols

/-- The standard symbol of a name. -/
def standardSymbol? (name : String) : Option Symbol := standardSymbols.find? (·.name = name)

/-- Every standard symbol can be evaluated and compiled. -/
theorem standardSymbols_complete {s : Symbol} (h : s ∈ standardSymbols) :
    s.isFunctional ∧ s.isCompilable := by
  simp only [standardSymbols, SymbolSet.all, List.mem_flatMap, List.mem_cons, List.not_mem_nil,
    or_false] at h
  obtain ⟨set, hset, hs⟩ := h
  rcases hset with rfl | rfl | rfl | rfl | rfl | rfl | rfl | rfl <;>
    simp only [SymbolSet.symbols, Symbol.basicSet, Symbol.extendedSet, Symbol.advancedSet,
      Symbol.trigonometricSet, Symbol.comparisonSet, Symbol.boundingSet, Symbol.ratioSet,
      Symbol.statisticsSet, List.mem_cons, List.not_mem_nil, or_false] at hs <;>
    rcases hs with rfl | rfl | rfl | rfl | rfl <;>
    exact ⟨rfl, rfl⟩

end FormulaEvolution
