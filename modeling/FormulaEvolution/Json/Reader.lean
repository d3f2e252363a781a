/-
# Reading JSON

From a text to a value, or to the first fault with its place.  Beyond the standard the words
`NaN`, `Infinity` and `-Infinity` are numbers.  A fault is placed by a position counted from
zero and by a line and a column counted from one.
-/
import FormulaEvolution.Json.Basic
import FormulaEvolution.Number.Reading
import FormulaEvolution.Text.Quoted

namespace FormulaEvolution
namespace Json

/-! ## 1. Faults -/

/-- What is wrong with a text. -/
inductive Problem where
  | value
  | fieldName
  | colon
  | comma
  | unterminated
  | control
  | badEscape
  | badCode
  | extra
  | byteOrderMark
  deriving DecidableEq, Repr

/-- The wording of a problem. -/
def Problem.message : Problem → String
  | .value => "Expecting value"
  | .fieldName => "Expecting property name enclosed in double quotes"
  | .colon => "Expecting ':' delimiter"
  | .comma => "Expecting ',' delimiter"
  | .unterminated => "Unterminated string starting at"
  | .control => "Invalid control character at"
  | .badEscape => "Invalid \\escape"
  | .badCode => "Invalid \\uXXXX escape"
  | .extra => "Extra data"
  | .byteOrderMark => "Unexpected UTF-8 BOM (decode using utf-8-sig)"

/-- A problem and how many characters of the text are left where it is noticed. -/
structure Stop where
  problem : Problem
  left : Nat
  deriving DecidableEq, Repr

/-- A problem and its place. -/
structure Fault where
  problem : Problem
  position : Nat
  line : Nat
  column : Nat
  deriving DecidableEq, Repr

/-- The wording of a fault. -/
def Fault.message (f : Fault) : String :=
  f.problem.message ++ ": line " ++ toString f.line ++ " column " ++ toString f.column ++
    " (char " ++ toString f.position ++ ")"

/-- Place a problem in its text. -/
def Stop.placeIn (s : Stop) (text : List Char) : Fault :=
  let position := text.length - s.left
  let before := text.take position
  { problem := s.problem
    position
    line := before.count '\n' + 1
    column := (before.reverse.takeWhile (· ≠ '\n')).length + 1 }

/-! ## 2. Blanks, numbers, strings -/

/-- Drop the blanks of JSON. -/
def skip (cs : List Char) : List Char :=
  cs.dropWhile fun c => c = ' ' || c = '\t' || c = '\n' || c = '\r'

/-- A fraction part, if one is there in full. -/
def takeFraction (cs : List Char) : List Char × List Char :=
  match cs with
  | '.' :: rest =>
    let ds := rest.takeWhile Char.isDigit
    if ds = [] then ([], cs) else (ds, rest.dropWhile Char.isDigit)
  | _ => ([], cs)

/-- An exponent part, if one is there in full. -/
def takeExponent (cs : List Char) : Option Int × List Char :=
  match cs with
  | c :: rest =>
    if c = 'e' || c = 'E' then
      let (negative, body) := Number.readSign rest
      let ds := body.takeWhile Char.isDigit
      if ds = [] then (none, cs)
      else
        let e : Int := Number.ofDigits ds
        (some (if negative then -e else e), body.dropWhile Char.isDigit)
    else (none, cs)
  | [] => (none, cs)

/-- Split off a minus sign; no other sign may stand in front of a number. -/
def takeMinus : List Char → Bool × List Char
  | '-' :: rest => (true, rest)
  | cs => (false, cs)

/-- The whole part in front of a text: a zero stands alone. -/
def wholePart (body : List Char) : List Char :=
  match body with
  | '0' :: _ => ['0']
  | _ => body.takeWhile Char.isDigit

/-- A number from the front of a text.  The whole part has no leading zero. -/
def takeNumber? (cs : List Char) : Option (Json × List Char) :=
  let (negative, body) := takeMinus cs
  let whole := wholePart body
  if whole = [] then none
  else
    let (fraction, rest) := takeFraction (body.drop whole.length)
    let (exponent, rest) := takeExponent rest
    if fraction = [] && exponent.isNone then
      let n : Int := Number.ofDigits whole
      some (.int (if negative then -n else n), rest)
    else
      let numeral : Number.Numeral := ⟨negative, whole, fraction, exponent.getD 0⟩
      some (.float numeral.toFloat, rest)

/-- The character of a one-letter escape. -/
def escaped? (c : Char) : Option Char :=
  if c = '"' || c = '\\' || c = '/' then some c
  else if c = 'b' then some '\x08'
  else if c = 'f' then some '\x0c'
  else if c = 'n' then some '\n'
  else if c = 'r' then some '\r'
  else if c = 't' then some '\t'
  else none

/-- The code unit of four hexadecimal digits; at least one more character follows them. -/
def takeUnit? : List Char → Option (Nat × List Char)
  | a :: b :: c :: d :: e :: rest =>
    (Text.Quoted.hexNumber? [a, b, c, d]).map (·, e :: rest)
  | _ => none

/-- A code unit that a second one has to follow. -/
def isHighUnit (n : Nat) : Bool := 0xD800 ≤ n && n ≤ 0xDBFF

/-- A code unit that follows a high one. -/
def isLowUnit (n : Nat) : Bool := 0xDC00 ≤ n && n ≤ 0xDFFF

/-- The character of two code units. -/
def joinUnits (high low : Nat) : Char :=
  Char.ofNat (0x10000 + (high - 0xD800) * 0x400 + (low - 0xDC00))

/-- The characters of a string up to its closing quote.  `start` is how much of the text was left
at the opening quote. -/
def takeString (start : Nat) : Nat → List Char → Except Stop (List Char × List Char)
  | 0, _ => .error ⟨.unterminated, start⟩
  | _ + 1, [] => .error ⟨.unterminated, start⟩
  | _ + 1, '"' :: rest => .ok ([], rest)
  | _ + 1, ['\\'] => .error ⟨.unterminated, start⟩
  | fuel + 1, '\\' :: 'u' :: cs =>
    match takeUnit? cs with
    | none => .error ⟨.badCode, cs.length + 1⟩
    | some (high, rest) =>
      let single := do
        let (text, rest) ← takeString start fuel rest
        return (Char.ofNat high :: text, rest)
      if isHighUnit high then
        match rest with
        | '\\' :: 'u' :: more =>
          match takeUnit? more with
          | none => if more.length < 5 then single else .error ⟨.badCode, more.length + 1⟩
          | some (low, rest) =>
            if isLowUnit low then do
              let (text, rest) ← takeString start fuel rest
              return (joinUnits high low :: text, rest)
            else single
        | _ => single
      else single
  | fuel + 1, '\\' :: c :: cs =>
    match escaped? c with
    | none => .error ⟨.badEscape, cs.length + 2⟩
    | some c => do
      let (text, rest) ← takeString start fuel cs
      return (c :: text, rest)
  | fuel + 1, c :: cs =>
    if c.toNat ≤ 0x1F then .error ⟨.control, cs.length + 1⟩
    else do
      let (text, rest) ← takeString start fuel cs
      return (c :: text, rest)

/-! ## 3. Values -/

/-- Words that are values. -/
def words : List (List Char × Json) :=
  [("null".toList, .null), ("true".toList, .bool true), ("false".toList, .bool false),
   ("NaN".toList, .float Number.notANumber), ("Infinity".toList, .float Number.infinity),
   ("-Infinity".toList, .float (-Number.infinity))]

/-- A word from the front of a text. -/
def takeWord? (cs : List Char) : Option (Json × List Char) :=
  (words.find? fun (word, _) => word.isPrefixOf cs).map fun (word, value) =>
    (value, cs.drop word.length)

mutual

/-- A value from the front of a text of fewer than `fuel` characters. -/
def takeValue : Nat → List Char → Except Stop (Json × List Char)
  | 0, cs => .error ⟨.value, cs.length⟩
  | fuel + 1, cs =>
    match cs with
    | '"' :: rest => do
      let (text, rest) ← takeString cs.length cs.length rest
      return (.string (String.ofList text), rest)
    | '[' :: rest =>
      match skip rest with
      | ']' :: rest => .ok (.list [], rest)
      | rest => do
        let (items, rest) ← takeItems fuel rest
        return (.list items, rest)
    | '\x7b' :: rest =>
      match skip rest with
      | '\x7d' :: rest => .ok (.object [], rest)
      | rest => do
        let (fields, rest) ← takeFields fuel [] rest
        return (.object fields, rest)
    | _ =>
      match (takeWord? cs).or (takeNumber? cs) with
      | some found => .ok found
      | none => .error ⟨.value, cs.length⟩

/-- The items of a list, up to its closing bracket. -/
def takeItems : Nat → List Char → Except Stop (List Json × List Char)
  | 0, cs => .error ⟨.value, cs.length⟩
  | fuel + 1, cs => do
    let (item, rest) ← takeValue fuel cs
    match skip rest with
    | ']' :: rest => return ([item], rest)
    | ',' :: rest =>
      let (items, rest) ← takeItems fuel (skip rest)
      return (item :: items, rest)
    | rest => .error ⟨.comma, rest.length⟩

/-- The fields of an object after those in `fields`, up to its closing brace. -/
def takeFields :
    Nat → List (String × Json) → List Char → Except Stop (List (String × Json) × List Char)
  | 0, _, cs => .error ⟨.fieldName, cs.length⟩
  | fuel + 1, fields, cs =>
    match cs with
    | '"' :: rest => do
      let (name, rest) ← takeString cs.length cs.length rest
      match skip rest with
      | ':' :: rest =>
        let (value, rest) ← takeValue fuel (skip rest)
        let fields := Dictionary.bind (String.ofList name) value fields
        match skip rest with
        | '\x7d' :: rest => return (fields, rest)
        | ',' :: rest => takeFields fuel fields (skip rest)
        | rest => .error ⟨.comma, rest.length⟩
      | rest => .error ⟨.colon, rest.length⟩
    | _ => .error ⟨.fieldName, cs.length⟩

end

/-- The value that a whole text holds. -/
def readChars (cs : List Char) : Except Stop Json := do
  if cs.head? = some '\uFEFF' then .error ⟨.byteOrderMark, cs.length⟩
  else
    let (value, rest) ← takeValue (cs.length + 1) (skip cs)
    match skip rest with
    | [] => return value
    | rest => .error ⟨.extra, rest.length⟩

/-- Read a document. -/
def read (text : String) : Except Fault Json :=
  (readChars text.toList).mapError (·.placeIn text.toList)

end Json
end FormulaEvolution
