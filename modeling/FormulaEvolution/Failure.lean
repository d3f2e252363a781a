/-
# Failures

Everything that can go wrong, by cause.  A cause carries what its wording needs and nothing else.
The causes fall into classes:

* faults of the evolution itself: arity, configuration, evaluation, shape of data, copying;
* arguments that have the right type and an unusable value;
* look-ups: names, keys, indices;
* values of the wrong type, and the rest.

`Failure.isLenient` says which of them lenient scoring turns into a prediction of zero, and
`Failure.isReported` which of them the commands report instead of passing them on.
-/
import FormulaEvolution.Json.Reader
import FormulaEvolution.Text.Template

namespace FormulaEvolution

/-! ## 1. Arity -/

/-- How an arity bound is missed. -/
inductive ArityBreach where
  | tooMany (attempted : Nat)
  | tooFew (attempted : Nat)
  | outside
  deriving DecidableEq, Repr

/-- A symbol's arity bounds and the count of children that would break or does break them. -/
structure ArityFault where
  symbol : String
  count : Nat
  least : Nat
  most : Nat
  breach : ArityBreach
  deriving DecidableEq, Repr

/-- The wording of an arity fault. -/
def ArityFault.message (f : ArityFault) : String :=
  match f.breach with
  | .tooMany attempted =>
    "Cannot add more subtrees to '" ++ f.symbol ++ "'. Maximum arity is " ++ toString f.most ++
      ", but would have " ++ toString attempted ++ " subtrees."
  | .tooFew attempted =>
    "Cannot remove subtrees from '" ++ f.symbol ++ "'. Minimum arity is " ++ toString f.least ++
      ", but would have " ++ toString attempted ++ " subtrees."
  | .outside =>
    "Symbol '" ++ f.symbol ++ "' has invalid arity. Current: " ++ toString f.count ++
      ", Expected: " ++ toString f.least ++ "-" ++ toString f.most ++ "."

/-! ## 2. Configuration -/

/-- A required component or setting that is missing or out of range. -/
inductive ConfigurationFault where
  | needsGrammar (operator : String)
  | noTerminals (grammar : String)
  | endlessTrees (grammar : String)
  | missingComponent (name : String)
  | smallPopulation
  | negativeGenerations
  | smallBudgets
  | probability (name got : String)
  | eliteCount (size got : String)
  | populationSetting
  | generationsSetting
  | budgetSettings
  | probabilitySetting (name got : String)
  | tournamentSetting
  | eliteSetting
  | parsimonySetting
  | thresholdSetting
  | noSymbolSet
  | choice (name : String) (allowed : List String) (got : String)
  | smoothRegression
  | unknownKeys (shown : String)
  deriving DecidableEq, Repr

/-- The wording of a configuration fault. -/
def ConfigurationFault.message : ConfigurationFault → String
  | .needsGrammar operator => operator ++ " needs a grammar before it can run"
  | .noTerminals grammar => "Grammar '" ++ grammar ++ "' has no enabled terminal symbols"
  | .endlessTrees grammar =>
    "Grammar '" ++ grammar ++ "' has no enabled terminal symbols; trees cannot terminate"
  | .missingComponent name => "The " ++ name ++ " must be set before running"
  | .smallPopulation => "Population size must be at least 1"
  | .negativeGenerations => "Maximum generations cannot be negative"
  | .smallBudgets => "Tree length and depth limits must be at least 1"
  | .probability name got => name ++ " probability must be within [0, 1], got " ++ got
  | .eliteCount size got => "Elite count must be within [0, " ++ size ++ "], got " ++ got
  | .populationSetting => "population_size must be at least 1"
  | .generationsSetting => "max_generations cannot be negative"
  | .budgetSettings => "max_tree_depth and max_tree_length must be at least 1"
  | .probabilitySetting name got => name ++ " must be within [0, 1], got " ++ got
  | .tournamentSetting => "tournament_size must be at least 1"
  | .eliteSetting => "elite_count must be within [0, population_size]"
  | .parsimonySetting => "parsimony_pressure cannot be negative"
  | .thresholdSetting => "parallel_threshold must be at least 1"
  | .noSymbolSet => "At least one symbol set must be enabled"
  | .choice name allowed got =>
    name ++ " must be one of (" ++ ", ".intercalate (allowed.map Text.Quoted.quote) ++ "), got " ++
      got
  | .smoothRegression => "Smooth fitness is only defined for classification"
  | .unknownKeys shown => "Unknown configuration keys: " ++ shown

/-! ## 3. Evaluation -/

/-- A node that cannot be evaluated. -/
inductive EvaluationFault where
  | noRoot
  | unsupported (symbol : String)
  | unboundVariable (name : String)
  | unboundKey (key : String)
  | unboundValue (shown : String)
  deriving DecidableEq, Repr

/-- The wording of an evaluation fault. -/
def EvaluationFault.message : EvaluationFault → String
  | .noRoot => "Tree has no root node"
  | .unsupported symbol => "Symbol '" ++ symbol ++ "' not supported in interpreter."
  | .unboundVariable name => "Variable '" ++ name ++ "' not provided."
  | .unboundKey key => "Variable " ++ Text.Quoted.quote key ++ " not provided."
  | .unboundValue shown => "Variable " ++ shown ++ " not provided."

/-- The name that an evaluation fault is about. -/
def EvaluationFault.symbol? : EvaluationFault → Option String
  | .noRoot => none
  | .unsupported symbol => some symbol
  | .unboundVariable name => some name
  | .unboundKey key => some key
  | .unboundValue shown => some shown

/-! ## 4. Shape of data -/

/-- Inputs, targets and variable names that disagree. -/
inductive ShapeFault where
  | clashes (names : List String)
  | inputsShape (shape : String)
  | targetsShape (shape : String)
  | bothShapes (inputs targets : String)
  | rowCounts (inputs targets : Nat)
  | noRows
  | columnCount (columns names : Nat)
  | nameCount (names columns : Nat)
  | repeatedNames (names : List String)
  | narrowHeader (path : String)
  | headerWidth (path : String) (header columns : Nat)
  | notNumeric (path : String)
  deriving DecidableEq, Repr

/-- The wording of a shape fault. -/
def ShapeFault.message : ShapeFault → String
  | .clashes names =>
    "Variable names " ++ Text.Quoted.list names ++ " clash with symbol names; rename those columns"
  | .inputsShape shape => "Inputs must be a 2-D array, got shape " ++ shape
  | .targetsShape shape => "Targets must be a 1-D array, got shape " ++ shape
  | .bothShapes inputs targets =>
    "Expected 2-D inputs and 1-D targets, got " ++ inputs ++ " and " ++ targets
  | .rowCounts inputs targets =>
    "Inputs have " ++ toString inputs ++ " rows but targets have " ++ toString targets
  | .noRows => "Dataset must contain at least one row"
  | .columnCount columns names =>
    "Inputs have " ++ toString columns ++ " columns but " ++ toString names ++
      " variable names were given"
  | .nameCount names columns =>
    toString names ++ " variable names given for " ++ toString columns ++ " input columns"
  | .repeatedNames names => "Variable names must be unique: " ++ Text.Quoted.list names
  | .narrowHeader path => path ++ ": need at least one input column and one target column"
  | .headerWidth path header columns =>
    path ++ ": header has " ++ toString header ++ " columns but rows have " ++ toString columns
  | .notNumeric path => path ++ ": missing or non-numeric values"

/-! ## 5. Unusable arguments -/

/-- An argument of the right type with a value that cannot be used. -/
inductive InvalidArgument where
  | arityBounds (least most : Int) (symbol : String)
  | terminalKind (kind : String)
  | terminalArity (symbol : String)
  | noVariables
  | noFunctions
  | repeatedSymbol (symbol grammar : String)
  | noSymbol
  | notConstant (symbol : String)
  | notVariable (symbol : String)
  | addMissing
  | replaceByMissing
  | missingRoot
  | foreignNode
  | unknownSymbol (shown : String)
  | noSymbolsToChoose
  | noSource
  | noGrammar
  | lengthBudget
  | depthBudget
  | rootlessTree
  | rootlessParent
  | noMutators
  | emptyPopulation
  | emptyRange
  | emptySpan (low high : Int)
  | poolSize
  | splitFraction (got : String)
  | splitRows
  | nothingToStack
  | columnLengths (shown : String)
  | unevenRows
  | lineWidths (expected : Nat) (lines : List (Nat × Nat))
  | emptySeparator
  | notListening
  | notANumber (text : String)
  | notAWholeNumber (text : String)
  | template (fault : Text.Template.Fault)
  | other (text : String)
  deriving DecidableEq, Repr

/-- The wording of an unusable argument. -/
def InvalidArgument.message : InvalidArgument → String
  | .arityBounds least most symbol =>
    "Invalid arity bounds [" ++ toString least ++ ", " ++ toString most ++ "] for '" ++ symbol ++
      "'"
  | .terminalKind kind => "Unknown terminal kind: " ++ kind
  | .terminalArity symbol => "Terminal symbol '" ++ symbol ++ "' must have arity [0, 0]"
  | .noVariables => "At least one variable name must be provided."
  | .noFunctions => "At least one functional symbol must be provided."
  | .repeatedSymbol symbol grammar =>
    "Symbol '" ++ symbol ++ "' already exists in grammar '" ++ grammar ++ "'"
  | .noSymbol => "A tree node needs a symbol"
  | .notConstant symbol => "Symbol '" ++ symbol ++ "' is not a constant symbol"
  | .notVariable symbol => "Symbol '" ++ symbol ++ "' is not a variable symbol"
  | .addMissing => "Cannot add a missing subtree"
  | .replaceByMissing => "Cannot replace with a missing subtree"
  | .missingRoot => "Root node cannot be None"
  | .foreignNode => "Node is not part of this tree"
  | .unknownSymbol shown => "Unknown symbol: " ++ shown
  | .noSymbolsToChoose => "Symbol list cannot be empty"
  | .noSource => "A random source is required"
  | .noGrammar => "A grammar is required"
  | .lengthBudget => "Maximum tree length must be at least 1"
  | .depthBudget => "Maximum tree depth must be at least 1"
  | .rootlessTree => "Tree must have a valid root node"
  | .rootlessParent => "Parent trees must have valid root nodes"
  | .noMutators => "CombinedMutator needs at least one mutator"
  | .emptyPopulation => "Population cannot be empty"
  | .emptyRange => "empty range for randrange()"
  | .emptySpan low high =>
    "empty range for randrange() (" ++ toString low ++ ", " ++ toString high ++ ", " ++
      toString (high - low) ++ ")"
  | .poolSize => "Pool size must be at least 1"
  | .splitFraction got => "Split fraction must be within (0, 1), got " ++ got
  | .splitRows => "Need at least two rows to split"
  | .nothingToStack => "need at least one array to stack"
  | .columnLengths shown => shown
  | .unevenRows => "inhomogeneous rows"
  | .lineWidths expected lines =>
    "\n".intercalate ("Some errors were detected !" :: lines.map fun (line, width) =>
      "    Line #" ++ toString line ++ " (got " ++ toString width ++ " columns instead of " ++
        toString expected ++ ")")
  | .emptySeparator => "empty separator"
  | .notListening => "list.remove(x): x not in list"
  | .notANumber text => "could not convert string to float: " ++ Text.Quoted.quote text
  | .notAWholeNumber text =>
    "invalid literal for int() with base 10: " ++ Text.Quoted.quote text
  | .template fault => fault.message
  | .other text => text

/-! ## 6. Look-ups and types -/

/-- An index outside its range. -/
inductive RangeFault where
  | list
  | subtree (index : Int) (symbol : String)
  | replacement (index : Nat)
  | textIndex
  deriving DecidableEq, Repr

/-- The wording of an index fault. -/
def RangeFault.message : RangeFault → String
  | .list => "list index out of range"
  | .subtree index symbol =>
    "Subtree index " ++ toString index ++ " out of range for '" ++ symbol ++ "'"
  | .replacement index => (Text.Template.Fault.missingArgument index).message
  | .textIndex => "string index out of range"

/-- A value of the wrong type. -/
inductive TypeFault where
  | noOperation (symbol : String)
  | notCompilable (symbol : String)
  | other
  deriving DecidableEq, Repr

/-- The wording of a type fault, where it has a fixed one. -/
def TypeFault.message? : TypeFault → Option String
  | .noOperation symbol => some ("Symbol '" ++ symbol ++ "' has no numeric operation")
  | .notCompilable symbol => some ("Symbol '" ++ symbol ++ "' is not compilable")
  | .other => none

/-! ## 7. All failures -/

/-- A failure, by cause. -/
inductive Failure where
  | arity (fault : ArityFault)
  | configuration (fault : ConfigurationFault)
  | evaluation (fault : EvaluationFault)
  | shape (fault : ShapeFault)
  | uncopyable (typeName : String)
  | invalid (fault : InvalidArgument)
  | document (fault : Json.Fault)
  | absentKey (key : String)
  | absentValue (shown : String)
  | range (fault : RangeFault)
  | mistyped (fault : TypeFault)
  | noSuchMember
  | divisionByZero
  | overflow
  | boundless
  | undefinedName (name : String)
  | unimplemented
  | endless
  | missingFile (path : String)
  | blockedPath (path : String)
  | isFolder (path : String)
  | notFolder (path : String)
  deriving DecidableEq, Repr

namespace Failure

/-- A template that cannot be filled, in its class. -/
def ofTemplate : Text.Template.Fault → Failure
  | .missingArgument index => .range (.replacement index)
  | .unknownName name => .absentKey name
  | .indexOutOfRange => .range .textIndex
  | .textIndex => .mistyped .other
  | .attribute => .noSuchMember
  | fault => .invalid (.template fault)

/-- The wording of a failure, where it has a fixed one. -/
def message? : Failure → Option String
  | .arity fault => some fault.message
  | .configuration fault => some fault.message
  | .evaluation fault => some fault.message
  | .shape fault => some fault.message
  | .uncopyable typeName =>
    some ("Type " ++ typeName ++ " does not support deep cloning (it is not a DeepCloneable)")
  | .invalid .unevenRows => none
  | .invalid fault => some fault.message
  | .document fault => some fault.message
  | .absentKey key => some (Text.Quoted.quote key)
  | .absentValue shown => some shown
  | .range fault => some fault.message
  | .mistyped fault => fault.message?
  | .noSuchMember => none
  | .divisionByZero => some "float division by zero"
  | .overflow => some "int too large to convert to float"
  | .boundless => some "cannot convert float infinity to integer"
  | .undefinedName name => some ("name '" ++ name ++ "' is not defined")
  | .unimplemented => some ""
  | .endless => none
  | .missingFile path => some ("[Errno 2] No such file or directory: " ++ Text.Quoted.quote path)
  | .blockedPath path => some ("[Errno 17] File exists: " ++ Text.Quoted.quote path)
  | .isFolder path => some ("[Errno 21] Is a directory: " ++ Text.Quoted.quote path)
  | .notFolder path => some ("[Errno 20] Not a directory: " ++ Text.Quoted.quote path)

/-- A failure of the evolution itself. -/
def isDomain : Failure → Bool
  | .arity _ | .configuration _ | .evaluation _ | .shape _ | .uncopyable _ => true
  | _ => false

/-- A failure that a command reports in one line. -/
def isReported : Failure → Bool
  | .invalid _ | .document _ => true
  | failure => failure.isDomain

/-- A failure that lenient scoring turns into a prediction of zero. -/
def isLenient : Failure → Bool
  | .mistyped _ | .divisionByZero | .overflow | .boundless => true
  | failure => failure.isReported

end Failure

end FormulaEvolution
