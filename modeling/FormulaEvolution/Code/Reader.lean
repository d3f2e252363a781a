/-
# Reading compiled expressions

The grammar: sums of products of factors; a factor has any number of minus or plus signs before a
primary; a primary is a number, a name, a variable, a call, or an expression in parentheses.  The
signs of one rank group from the left.

Every function takes a bound on its depth; a text with `n` tokens needs less than `readingBound n`.
-/
import FormulaEvolution.Code.Basic
import FormulaEvolution.Code.Token

namespace FormulaEvolution
namespace Code

/-- Read one mark. -/
def expectMark (c : Char) : List Token → Option (List Token)
  | .mark d :: ts => if d = c then some ts else none
  | _ => none

/-- The sign between two products that a mark stands for. -/
def sumSign? (c : Char) : Option Sign :=
  if c = '+' then some .plus else if c = '-' then some .minus else none

/-- The sign between two factors that a mark stands for. -/
def productSign? (c : Char) : Option Sign :=
  if c = '*' then some .times else if c = '/' then some .over else none

/-- The double nearest to a whole number. -/
def ofWhole (n : Nat) : Code := .number (Number.ofScaled n 1 0)

mutual

/-- Read an expression. -/
def readSum : Nat → List Token → Option (Code × List Token)
  | 0, _ => none
  | bound + 1, ts => do
    let (x, ts) ← readProduct bound ts
    readSumAfter bound x ts

/-- Read what follows the products read so far. -/
def readSumAfter : Nat → Code → List Token → Option (Code × List Token)
  | 0, _, _ => none
  | bound + 1, x, ts =>
    match ts with
    | .mark c :: rest =>
      match sumSign? c with
      | some s => do
        let (y, rest) ← readProduct bound rest
        readSumAfter bound (.signed s x y) rest
      | none => some (x, ts)
    | _ => some (x, ts)

/-- Read a product. -/
def readProduct : Nat → List Token → Option (Code × List Token)
  | 0, _ => none
  | bound + 1, ts => do
    let (x, ts) ← readFactor bound ts
    readProductAfter bound x ts

/-- Read what follows the factors read so far. -/
def readProductAfter : Nat → Code → List Token → Option (Code × List Token)
  | 0, _, _ => none
  | bound + 1, x, ts =>
    match ts with
    | .mark c :: rest =>
      match productSign? c with
      | some s => do
        let (y, rest) ← readFactor bound rest
        readProductAfter bound (.signed s x y) rest
      | none => some (x, ts)
    | _ => some (x, ts)

/-- Read a factor. -/
def readFactor : Nat → List Token → Option (Code × List Token)
  | 0, _ => none
  | bound + 1, ts =>
    match ts with
    | .mark '-' :: ts => (readFactor bound ts).map fun (x, rest) => (.negated x, rest)
    | .mark '+' :: ts => readFactor bound ts
    | .mark '(' :: ts => do
      let (x, ts) ← readSum bound ts
      let ts ← expectMark ')' ts
      some (x, ts)
    | .number x :: ts => some (.number x, ts)
    | .whole n :: ts => some (ofWhole n, ts)
    | .name n :: .mark '(' :: ts =>
      if n = nodeCallName then readNodeCall bound ts
      else (readArguments bound ')' ts).map fun (args, rest) => (.call n args, rest)
    | .name n :: .mark '[' :: .quoted text :: .mark ']' :: ts =>
      if n = variablesName then some (.input text, ts) else none
    | .name n :: ts => some (.name n, ts)
    | _ => none

/-- Read the call of a node behind its opening parenthesis. -/
def readNodeCall : Nat → List Token → Option (Code × List Token)
  | 0, _ => none
  | bound + 1, ts =>
    match ts with
    | .name n :: .mark '[' :: .whole index :: .mark ']' :: .mark ',' :: .mark '[' :: ts => do
      let (args, ts) ← readArguments bound ']' ts
      match ts with
      | .mark ',' :: .name v :: .mark ')' :: ts =>
        if n = nodesName && v = variablesName then some (.node index args, ts) else none
      | _ => none
    | _ => none

/-- Read expressions separated by commas, up to a closing mark. -/
def readArguments : Nat → Char → List Token → Option (List Code × List Token)
  | 0, _, _ => none
  | bound + 1, close, ts =>
    match expectMark close ts with
    | some rest => some ([], rest)
    | none => do
      let (x, ts) ← readSum bound ts
      match expectMark close ts with
      | some rest => some ([x], rest)
      | none => do
        let ts ← expectMark ',' ts
        let (xs, rest) ← readArguments bound close ts
        some (x :: xs, rest)

end

/-- A bound on the depth of reading a number of tokens. -/
def readingBound (count : Nat) : Nat := 4 * count + 4

/-- The expression that a whole text is, if it is one. -/
def ofText? (text : List Char) : Option Code := do
  let ts ← Token.scan text
  if Token.staysWithin 0 ts then
    match readSum (readingBound ts.length) ts with
    | some (x, []) => some x
    | _ => none
  else none

end Code
end FormulaEvolution
