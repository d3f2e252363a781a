/-
# Templates with replacement fields

A template is a text with fields in braces.  Filling it puts an argument, itself a text, in the
place of each field.  Doubled braces stand for single ones.

A field may be empty (the next argument), a number (that argument) or a name, which no argument
has; a path of indices may follow, then `!` and a conversion, then `:` and a width, an alignment
and a precision.  The template is read from left to right, so of two faults the first counts.
-/
import FormulaEvolution.Number.Reading
import FormulaEvolution.Text.Quoted

namespace FormulaEvolution
namespace Text
namespace Template

/-! ## 1. Faults -/

/-- Why a template cannot be filled. -/
inductive Fault where
  | singleOpening
  | singleClosing
  | openingInName
  | unclosedField
  | unclosedFormat
  | missingConversion
  | afterConversion
  | unknownConversion (c : Char)
  | manualAfterAutomatic
  | automaticAfterManual
  | deepNesting
  | badPath
  | unclosedIndex
  | emptyAttribute
  | badFormat
  | unknownFormat (c : Char)
  | missingArgument (index : Nat)
  | unknownName (name : String)
  | indexOutOfRange
  | textIndex
  | attribute
  deriving DecidableEq, Repr

/-- The wording of a fault. -/
def Fault.message : Fault → String
  | .singleOpening => "Single '\x7b' encountered in format string"
  | .singleClosing => "Single '\x7d' encountered in format string"
  | .openingInName => "unexpected '\x7b' in field name"
  | .unclosedField => "expected '\x7d' before end of string"
  | .unclosedFormat => "unmatched '\x7b' in format spec"
  | .missingConversion => "end of string while looking for conversion specifier"
  | .afterConversion => "expected ':' after conversion specifier"
  | .unknownConversion c => "Unknown conversion specifier " ++ c.toString
  | .manualAfterAutomatic =>
    "cannot switch from automatic field numbering to manual field specification"
  | .automaticAfterManual =>
    "cannot switch from manual field specification to automatic field numbering"
  | .deepNesting => "Max string recursion exceeded"
  | .badPath => "Only '.' or '[' may follow ']' in format field specifier"
  | .unclosedIndex => "Missing ']' in format string"
  | .emptyAttribute => "Empty attribute in format string"
  | .badFormat => "Invalid format specifier"
  | .unknownFormat c =>
    "Unknown format code " ++ Quoted.quote c.toString ++ " for object of type 'str'"
  | .missingArgument index =>
    "Replacement index " ++ toString index ++ " out of range for positional args tuple"
  | .unknownName name => Quoted.quote name
  | .indexOutOfRange => "string index out of range"
  | .textIndex => "string indices must be integers, not 'str'"
  | .attribute => "no such attribute"

/-! ## 2. Reading fields -/

/-- A field as it stands in the template. -/
structure Field where
  name : List Char
  conversion : Option Char
  format : List Char
  deriving DecidableEq, Repr

/-- Read a field name up to the mark that ends it.  Inside brackets every character belongs to
the name. -/
def takeName (inBrackets : Bool) : List Char → Except Fault (List Char × Char × List Char)
  | [] => .error .unclosedField
  | c :: cs =>
    if inBrackets then do
      let (name, mark, rest) ← takeName (c ≠ ']') cs
      return (c :: name, mark, rest)
    else if c = '\x7b' then .error .openingInName
    else if c = '\x7d' || c = ':' || c = '!' then .ok ([], c, cs)
    else do
      let (name, mark, rest) ← takeName (c = '[') cs
      return (c :: name, mark, rest)

/-- Read a format up to the brace that closes the field; `depth` counts inner open braces. -/
def takeFormat (depth : Nat) : List Char → Except Fault (List Char × List Char)
  | [] => .error .unclosedFormat
  | c :: cs =>
    if c = '\x7d' then
      match depth with
      | 0 => .ok ([], cs)
      | depth + 1 => do
        let (format, rest) ← takeFormat depth cs
        return (c :: format, rest)
    else do
      let (format, rest) ← takeFormat (if c = '\x7b' then depth + 1 else depth) cs
      return (c :: format, rest)

/-- Read what follows the `!` of a field. -/
def takeConversion (name : List Char) : List Char → Except Fault (Field × List Char)
  | [] => .error .missingConversion
  | [_] => .error .unclosedFormat
  | c :: '\x7d' :: cs => .ok (⟨name, some c, []⟩, cs)
  | c :: ':' :: cs => do
    let (format, rest) ← takeFormat 0 cs
    return (⟨name, some c, format⟩, rest)
  | _ => .error .afterConversion

/-- Read a field after its opening brace. -/
def takeField (cs : List Char) : Except Fault (Field × List Char) := do
  let (name, mark, rest) ← takeName false cs
  if mark = '\x7d' then return (⟨name, none, []⟩, rest)
  else if mark = '!' then takeConversion name rest
  else
    let (format, rest) ← takeFormat 0 rest
    return (⟨name, none, format⟩, rest)

/-! ## 3. Choosing arguments -/

/-- Whether fields have been numbered by the template so far, and how. -/
inductive Numbering where
  | open
  | automatic (next : Nat)
  | manual
  deriving DecidableEq, Repr

/-- The argument of a field by the front part of its name. -/
def argument (args : List (List Char)) (numbering : Numbering) (front : List Char) :
    Except Fault (List Char × Numbering) :=
  let pick (index : Nat) (numbering : Numbering) :=
    match args[index]? with
    | some text => .ok (text, numbering)
    | none => .error (.missingArgument index)
  if front = [] then
    match numbering with
    | .open => pick 0 (.automatic 1)
    | .automatic next => pick next (.automatic (next + 1))
    | .manual => .error .automaticAfterManual
  else if front.all Char.isDigit then
    match numbering with
    | .automatic _ => .error .manualAfterAutomatic
    | _ => pick (Number.ofDigits front) .manual
  else .error (.unknownName (String.ofList front))

/-- Follow a path of indices into a text. -/
def follow : Nat → List Char → List Char → Except Fault (List Char)
  | _, text, [] => .ok text
  | 0, _, _ => .error .badPath
  | fuel + 1, text, '[' :: path =>
    let index := path.takeWhile (· ≠ ']')
    match path.dropWhile (· ≠ ']') with
    | [] => .error .unclosedIndex
    | _ :: rest =>
      if index = [] then .error .emptyAttribute
      else if index.all Char.isDigit then
        match text[Number.ofDigits index]? with
        | some c => follow fuel [c] rest
        | none => .error .indexOutOfRange
      else .error .textIndex
  | _ + 1, _, '.' :: path =>
    if path.takeWhile (fun c => c ≠ '.' && c ≠ '[') = [] then .error .emptyAttribute
    else .error .attribute
  | _ + 1, _, _ => .error .badPath

/-- Apply a conversion. -/
def convert (text : List Char) : Option Char → Except Fault (List Char)
  | none => .ok text
  | some c =>
    if c = 's' then .ok text
    else if c = 'r' || c = 'a' then .ok (Quoted.encode text)
    else .error (.unknownConversion c)

/-! ## 4. Width and alignment -/

/-- Where a text stands in a wider field. -/
inductive Alignment where
  | left
  | center
  | right
  deriving DecidableEq, Repr

/-- The alignment that a mark stands for. -/
def Alignment.ofMark? (c : Char) : Option Alignment :=
  if c = '<' then some .left
  else if c = '^' then some .center
  else if c = '>' then some .right
  else none

/-- Fill a text up to a width. -/
def pad (fill : Char) (alignment : Alignment) (width : Nat) (text : List Char) : List Char :=
  let missing := width - text.length
  match alignment with
  | .left => text ++ List.replicate missing fill
  | .right => List.replicate missing fill ++ text
  | .center =>
    List.replicate (missing / 2) fill ++ text ++ List.replicate (missing - missing / 2) fill

/-- The fill and the alignment at the front of a format. -/
def takeAlignment (format : List Char) : Char × Option Alignment × List Char :=
  match format with
  | fill :: mark :: rest =>
    match Alignment.ofMark? mark, Alignment.ofMark? fill with
    | some alignment, _ => (fill, some alignment, rest)
    | none, some alignment => (' ', some alignment, mark :: rest)
    | none, none => (' ', none, format)
  | [mark] =>
    match Alignment.ofMark? mark with
    | some alignment => (' ', some alignment, [])
    | none => (' ', none, format)
  | [] => (' ', none, [])

/-- Lay a text out as a format says: fill and alignment, width, precision, and the code `s`. -/
def layOut (format text : List Char) : Except Fault (List Char) :=
  let (fill, alignment, rest) := takeAlignment format
  let fill := if alignment.isNone && rest.head? = some '0' then '0' else fill
  let width := Number.ofDigits (rest.takeWhile Char.isDigit)
  let rest := rest.dropWhile Char.isDigit
  let place (text rest : List Char) :=
    match rest with
    | [] => .ok (pad fill (alignment.getD .left) width text)
    | ['s'] => .ok (pad fill (alignment.getD .left) width text)
    | [c] => .error (.unknownFormat c)
    | _ => .error .badFormat
  match rest with
  | '.' :: d :: ds =>
    if d.isDigit then
      let digits := (d :: ds).takeWhile Char.isDigit
      place (text.take (Number.ofDigits digits)) ((d :: ds).dropWhile Char.isDigit)
    else .error .badFormat
  | _ => place text rest

/-! ## 5. Filling -/

/-- The text that replaces a field, when formats are filled by `inner`. -/
def replacement (inner : Numbering → List Char → Except Fault (List Char × Numbering))
    (args : List (List Char)) (numbering : Numbering) (field : Field) :
    Except Fault (List Char × Numbering) := do
  let isPath (c : Char) : Bool := c = '.' || c = '['
  let front := field.name.takeWhile (!isPath ·)
  let (text, numbering) ← argument args numbering front
  let text ← follow field.name.length text (field.name.dropWhile (!isPath ·))
  let text ← convert text field.conversion
  if field.format.contains '\x7b' then
    let (format, numbering) ← inner numbering field.format
    return (← layOut format text, numbering)
  else return (← layOut field.format text, numbering)

/-- Fill a template of at most `fuel` characters. -/
def fillWith (inner : Numbering → List Char → Except Fault (List Char × Numbering))
    (args : List (List Char)) :
    Nat → Numbering → List Char → Except Fault (List Char × Numbering)
  | _, numbering, [] => .ok ([], numbering)
  | 0, numbering, _ => .ok ([], numbering)
  | fuel + 1, numbering, c :: cs =>
    if c = '\x7d' then
      match cs with
      | '\x7d' :: rest => do
        let (text, numbering) ← fillWith inner args fuel numbering rest
        return ('\x7d' :: text, numbering)
      | _ => .error .singleClosing
    else if c = '\x7b' then
      match cs with
      | [] => .error .singleOpening
      | '\x7b' :: rest => do
        let (text, numbering) ← fillWith inner args fuel numbering rest
        return ('\x7b' :: text, numbering)
      | _ => do
        let (field, rest) ← takeField cs
        let (front, numbering) ← replacement inner args numbering field
        let (text, numbering) ← fillWith inner args fuel numbering rest
        return (front ++ text, numbering)
    else do
      let (text, numbering) ← fillWith inner args fuel numbering cs
      return (c :: text, numbering)

/-- Fill a template.  A format may hold fields, and those hold none further. -/
def fill (template : List Char) (args : List (List Char)) : Except Fault (List Char) := do
  let tooDeep (_ : Numbering) (_ : List Char) : Except Fault (List Char × Numbering) :=
    .error .deepNesting
  let inner (numbering : Numbering) (format : List Char) :=
    fillWith tooDeep args format.length numbering format
  let (text, _) ← fillWith inner args template.length .open template
  return text

end Template
end Text
end FormulaEvolution
