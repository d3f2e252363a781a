/-
# Symbols

A symbol is a named operation or terminal with bounds on how many children it takes.  What it can
do shows in its parts: a kind makes it a terminal with a constant or a variable, an operation makes
it evaluable, a template makes it compilable.

The bounds are in order and a symbol with a kind takes no children; `Symbol.make` refuses anything
else, and the type keeps it so.
-/
import FormulaEvolution.Value

namespace FormulaEvolution

/-! ## 1. Parts -/

/-- What a terminal stands for. -/
inductive TerminalKind where
  | constant
  | variable
  deriving DecidableEq, Repr

/-- The name of a kind. -/
def TerminalKind.name : TerminalKind → String
  | .constant => "constant"
  | .variable => "variable"

/-- The kind of a name. -/
def TerminalKind.ofName? (name : String) : Option TerminalKind :=
  if name = "constant" then some .constant
  else if name = "variable" then some .variable
  else none

/-- An operation on the values of the children. -/
abbrev Operation := List Value → Except Failure Value

/-- How a symbol is written in a compiled expression: a text with fields for the children, or a
call with all of them. -/
inductive Template where
  | text (t : String)
  | call (function : String)
  deriving DecidableEq, Repr

/-- The range of new constants unless a symbol has its own. -/
def defaultRange : Float × Float := (-10.0, 10.0)

/-- A named operation or terminal. -/
structure Symbol where
  name : String
  least : Nat
  most : Nat
  operation : Option Operation := none
  template : Option Template := none
  kind : Option TerminalKind := none
  description : String := ""
  frequency : Float := 1.0
  range : Float × Float := defaultRange
  least_le_most : least ≤ most := by omega
  most_of_kind : kind.isSome → most = 0 := by simp

namespace Symbol

/-! ## 2. Making symbols -/

/-- Everything a symbol is made from, before the bounds are checked. -/
structure Draft where
  name : String
  least : Int
  most : Int
  operation : Option Operation := none
  template : Option Template := none
  kind : Option String := none
  description : String := ""
  frequency : Float := 1.0
  range : Float × Float := defaultRange

/-- The kind that a draft asks for. -/
def Draft.kind? (d : Draft) : Except Failure (Option TerminalKind) :=
  match d.kind with
  | none => .ok none
  | some name =>
    match TerminalKind.ofName? name with
    | some kind => .ok (some kind)
    | none => .error (.invalid (.terminalKind name))

/-- Make a symbol: the bounds must be in order, and a terminal with a kind takes no children. -/
def make (d : Draft) : Except Failure Symbol := do
  if h : 0 ≤ d.least ∧ d.least ≤ d.most then
    let kind ← d.kind?
    if hk : kind.isSome → d.most.toNat = 0 then
      return {
        name := d.name
        least := d.least.toNat
        most := d.most.toNat
        operation := d.operation
        template := d.template
        kind
        description := d.description
        frequency := d.frequency
        range := d.range
        least_le_most := by omega
        most_of_kind := hk }
    else throw (.invalid (.terminalArity d.name))
  else throw (.invalid (.arityBounds d.least d.most d.name))

/-! ## 3. What a symbol is -/

/-- A symbol without children. -/
def isTerminal (s : Symbol) : Bool := s.most = 0

/-- A symbol for constants. -/
def isConstant (s : Symbol) : Bool := s.kind = some .constant

/-- A symbol for a variable. -/
def isVariable (s : Symbol) : Bool := s.kind = some .variable

/-- A symbol with an operation. -/
def isFunctional (s : Symbol) : Bool := s.operation.isSome

/-- A symbol with a template. -/
def isCompilable (s : Symbol) : Bool := s.template.isSome

/-- Whether a symbol takes a count of children. -/
def accepts (s : Symbol) (count : Nat) : Bool := s.least ≤ count && count ≤ s.most

theorem accepts_iff {s : Symbol} {count : Nat} :
    s.accepts count = true ↔ s.least ≤ count ∧ count ≤ s.most := by
  simp [accepts]

/-- A symbol with a kind takes no children. -/
theorem isTerminal_of_kind {s : Symbol} (h : s.kind.isSome) : s.isTerminal := by
  simp [isTerminal, s.most_of_kind h]

/-! ## 4. What a symbol does -/

/-- Apply the operation to the values of the children. -/
def evaluate (s : Symbol) (args : List Value) : Except Failure Value :=
  match s.operation with
  | some operation => operation args
  | none => .error (.mistyped (.noOperation s.name))

/-- A call in a compiled expression. -/
def callText (function : String) (args : List (List Char)) : List Char :=
  function.toList ++ '(' :: (Text.join [',', ' '] args ++ [')'])

/-- Write the symbol over the texts of its children. -/
def emit (s : Symbol) (args : List (List Char)) : Except Failure (List Char) :=
  match s.template with
  | none => .error (.mistyped (.notCompilable s.name))
  | some (.call function) => .ok (callText function args)
  | some (.text t) => (Text.Template.fill t.toList args).mapError .ofTemplate

/-- How a symbol is shown. -/
def describe (s : Symbol) : String :=
  "Symbol(" ++ Text.Quoted.quote s.name ++ ", [" ++ toString s.least ++ ", " ++
    toString s.most ++ "])"

/-! ## 5. Terminals -/

/-- The text of a variable in a compiled expression: its quoted name as a key. -/
def variableText (name : String) : String := "variables[" ++ Text.Quoted.quote name ++ "]"

/-- The symbol of a variable. -/
def forVariable (name : String) : Symbol where
  name
  least := 0
  most := 0
  template := some (.text (variableText name))
  kind := some .variable
  description := "Input variable " ++ name

/-- The symbol of constants. -/
def forConstant (name : String) (range : Float × Float) : Symbol where
  name
  least := 0
  most := 0
  kind := some .constant
  description := "Numeric constant"
  range

/-- The name of the constants of a regression grammar. -/
def constantName : String := "Constant"

end Symbol
end FormulaEvolution
