/-
# Values: numbers and columns

An expression is evaluated on one row, where every variable is a number, or on all rows at once,
where every variable is a column.  A value is therefore a number or a column, and an operation on
values is an operation on rows: numbers, and columns of one entry, stand for the same entry in
every row.
-/
import FormulaEvolution.Dictionary
import FormulaEvolution.Failure

namespace FormulaEvolution

/-- A number, or one number a row. -/
inductive Value where
  | number (x : Float)
  | column (xs : List Float)
  deriving Inhabited

namespace Value

/-! ## 1. Rows -/

/-- How many entries a column has; a number has none of its own. -/
def length? : Value → Option Nat
  | .number _ => none
  | .column xs => some xs.length

/-- One entry for each of `n` rows. -/
def spread (n : Nat) : Value → List Float
  | .number x => List.replicate n x
  | .column [x] => List.replicate n x
  | .column xs => xs

/-- The rows that arguments form, each a list with one entry for each argument. -/
def rows (n : Nat) (args : List Value) : List (List Float) :=
  args.foldr (fun v rest => List.zipWith List.cons (v.spread n) rest) (List.replicate n [])

/-- The lengths of the columns among arguments. -/
def lengths (args : List Value) : List Nat := args.filterMap length?

/-- The number of rows of columns of these lengths: a length other than one, if there is one. -/
def commonLength (ns : List Nat) : Nat := (ns.find? (· ≠ 1)).getD 1

/-- Whether columns of these lengths have their rows in common. -/
def agree (ns : List Nat) : Bool := ns.all fun n => n = 1 || n = commonLength ns

/-! ## 2. Operations row by row -/

/-- How the lengths of columns that have no rows in common are reported. -/
def lengthsText (ns : List Nat) : String :=
  "operands could not be broadcast together with shapes " ++
    String.join (ns.map fun n => "(" ++ toString n ++ ",) ")

/-- Apply a function of the numbers of one row to values. -/
def lift (f : List Float → Float) (args : List Value) : Except Failure Value :=
  match lengths args with
  | [] => .ok (.number (f (args.flatMap (spread 1))))
  | ns =>
    if agree ns then .ok (.column ((rows (commonLength ns) args).map f))
    else .error (.invalid (.columnLengths (lengthsText ns)))

/-- Apply a function that may fail to the numbers of one row, for each row. -/
def liftM (f : List Float → Except Failure Float) (args : List Value) : Except Failure Value :=
  match lengths args with
  | [] => (f (args.flatMap (spread 1))).map .number
  | ns =>
    if agree ns then ((rows (commonLength ns) args).mapM f).map .column
    else .error (.invalid (.columnLengths (lengthsText ns)))

/-- The number that a value is.  A column of one entry is that entry. -/
def toNumber : Value → Except Failure Float
  | .number x => .ok x
  | .column [x] => .ok x
  | .column _ => .error (.mistyped .other)

/-- One entry for each of `n` rows; a column is kept as it is. -/
def toColumn (n : Nat) : Value → List Float
  | .number x => List.replicate n x
  | .column xs => xs

/-! ## 3. Facts -/

theorem lift_numbers (f : List Float → Float) (xs : List Float) :
    lift f (xs.map .number) = .ok (.number (f xs)) := by
  have h : lengths (xs.map .number) = [] := by
    simp [lengths, List.filterMap_map, Function.comp_def, length?]
  have h' : (xs.map .number).flatMap (spread 1) = xs := by
    simp [List.flatMap_map, spread, List.replicate]
  simp only [lift, h, h']

end Value

/-- The values that variables stand for. -/
abbrev Bindings := Dictionary Value

end FormulaEvolution
