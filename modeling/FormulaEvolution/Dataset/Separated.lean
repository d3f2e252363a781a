/-
# Separated values

Datasets as text: a line with the names of the columns, then a line for each row, with a separator
between fields.  Lines may be blank, and what follows a number sign is a comment, the first line
apart.  A field that is no number counts as missing, and none may be missing.

The table of a single row and the table of a single column look the same, and both are taken for a
single row.
-/
import FormulaEvolution.Dataset.Basic
import FormulaEvolution.Number.Reading

namespace FormulaEvolution
namespace Dataset

/-! ## 1. Lines -/

/-- What starts a comment. -/
def commentMark : Char := '#'

/-- Whether a character at an end of a line is not part of the line. -/
def isLineBlank (c : Char) : Bool := c = ' ' || c = '\r' || c = '\n'

/-- The fields of the first line. -/
def headerFields (separator line : List Char) : List String :=
  (Text.cutBy separator (Text.trim line)).map fun field => String.ofList (Text.trim field)

/-- The fields of a line of numbers; a line without anything but a comment has none. -/
def lineFields (separator line : List Char) : List (List Char) :=
  match Text.trimBy isLineBlank (line.takeWhile (· ≠ commentMark)) with
  | [] => []
  | cs => Text.cutBy separator cs

/-- The number in a field. -/
def fieldNumber (field : List Char) : Float :=
  (Number.ofText? (String.ofList field)).getD Number.notANumber

/-! ## 2. Tables -/

/-- The lines from the first one with fields on, each with its fields. -/
def fieldLines (separator : List Char) (lines : List (List Char)) : List (List (List Char)) :=
  (lines.map (lineFields separator)).dropWhile List.isEmpty

/-- The number of the first line of numbers, as faults count it. -/
def firstLine : Nat := 2

/-- The lines that have fields, but not as many as the first one. -/
def oddLines (width : Nat) (lines : List (List (List Char))) : List (Nat × Nat) :=
  ((lines.mapIdx fun i fields => (i + firstLine, fields.length)).filter fun (_, count) =>
    count ≠ 0 && count ≠ width)

/-- The numbers of all lines that have any. -/
def tableOf (separator : List Char) (lines : List (List Char)) :
    Except Failure (List (List Float)) :=
  let lines := fieldLines separator lines
  let width := (lines.head?.map List.length).getD 0
  match oddLines width lines with
  | [] => .ok ((lines.filter (!·.isEmpty)).map fun fields => fields.map fieldNumber)
  | odd => .error (.invalid (.lineWidths width odd))

/-- A table as rows: a single column is a row, and no row at all is a row without entries. -/
def asRows (table : List (List Float)) : List (List Float) :=
  match table with
  | [] => [[]]
  | first :: rest => if first.length = 1 then [(first :: rest).flatten] else table

/-! ## 3. Whole texts -/

/-- Which column holds the targets; the index goes round in both directions. -/
def targetIndex (column : Int) (width : Nat) : Nat := (column.emod width).toNat

/-- Read a dataset.  `path` is named in faults. -/
def ofText (path : String) (text : String) (targetColumn : Int) (separator : String) :
    Except Failure Dataset := do
  let lines := Text.lines text.toList
  if separator = "" then throw (.invalid .emptySeparator)
  let separator := separator.toList
  let header := headerFields separator (lines.headD [])
  if header.length < 2 then throw (.shape (.narrowHeader path))
  let table ← tableOf separator lines.tail
  let rows := asRows table
  let width := (rows.head?.map List.length).getD 0
  if width ≠ header.length then throw (.shape (.headerWidth path header.length width))
  if rows.any (·.any Number.isNaN) then throw (.shape (.notNumeric path))
  let target := targetIndex targetColumn header.length
  ofRows (header.eraseIdx target) (rows.map (·.eraseIdx target))
    (rows.map fun row => row.getD target Number.notANumber)

end Dataset
end FormulaEvolution
