/-
# Writing JSON

A value as text, two blanks of indentation for each level, in ASCII: every other character is
written by its UTF-16 code units.  Numbers with a fraction are written with the fewest digits that
read back; infinities and the absent number are words.
-/
import FormulaEvolution.Json.Basic
import FormulaEvolution.Number.Notation
import FormulaEvolution.Text.Quoted

namespace FormulaEvolution
namespace Json

/-! ## 1. Leaves -/

/-- A UTF-16 code unit as an escape. -/
def unitEscape (n : Nat) : List Char := '\\' :: 'u' :: Text.Quoted.hex 4 n

/-- One character of a string. -/
def escape (c : Char) : List Char :=
  let n := c.toNat
  if c = '"' || c = '\\' then ['\\', c]
  else if c = '\n' then ['\\', 'n']
  else if c = '\r' then ['\\', 'r']
  else if c = '\t' then ['\\', 't']
  else if n = 0x08 then ['\\', 'b']
  else if n = 0x0C then ['\\', 'f']
  else if 0x20 ≤ n && n ≤ 0x7E then [c]
  else if n < 0x10000 then unitEscape n
  else
    unitEscape (0xD800 + (n - 0x10000) / 0x400) ++ unitEscape (0xDC00 + (n - 0x10000) % 0x400)

/-- A string in double quotes. -/
def quoteText (s : String) : List Char := '"' :: (s.toList.flatMap escape ++ ['"'])

/-- A number with a fraction. -/
def floatText (x : Float) : String :=
  match Number.decode x with
  | .nan => "NaN"
  | .infinite negative => if negative then "-Infinity" else "Infinity"
  | .finite .. => Number.exactText x

/-! ## 2. Values -/

/-- A new line at a level. -/
def lineAt (level : Nat) : List Char := '\n' :: List.replicate (2 * level) ' '

/-- Items in brackets at a level, one a line. -/
def bracketed (opening closing : Char) (level : Nat) : List (List Char) → List Char
  | [] => [opening, closing]
  | items =>
    opening :: (lineAt (level + 1) ++ List.intercalate (',' :: lineAt (level + 1)) items ++
      lineAt level ++ [closing])

mutual

/-- A value at a level. -/
def chars (level : Nat) : Json → List Char
  | .null => "null".toList
  | .bool b => if b then "true".toList else "false".toList
  | .int n => (toString n).toList
  | .float x => (floatText x).toList
  | .string s => quoteText s
  | .list items => bracketed '[' ']' level (itemChars (level + 1) items)
  | .object fields => bracketed '\x7b' '\x7d' level (fieldChars (level + 1) fields)

/-- The items of a list at a level. -/
def itemChars (level : Nat) : List Json → List (List Char)
  | [] => []
  | item :: items => chars level item :: itemChars level items

/-- The fields of an object at a level. -/
def fieldChars (level : Nat) : List (String × Json) → List (List Char)
  | [] => []
  | (name, value) :: fields =>
    (quoteText name ++ ':' :: ' ' :: chars level value) :: fieldChars level fields

end

/-- Write a document. -/
def write (value : Json) : String := String.ofList (chars 0 value)

end Json
end FormulaEvolution
