/-
# Values in messages

How a value is shown inside a message, and what number a value is.  Texts inside lists and objects
are quoted; a text that stands alone is shown as it is by `plain` and quoted by `shown`.
-/
import FormulaEvolution.Failure
import FormulaEvolution.Number.Notation

namespace FormulaEvolution
namespace Json

mutual

/-- A value in a message, texts quoted. -/
def shown : Json → String
  | .null => "None"
  | .bool b => if b then "True" else "False"
  | .int n => toString n
  | .float x => Number.exactText x
  | .string s => Text.Quoted.quote s
  | .list items => "[" ++ ", ".intercalate (shownItems items) ++ "]"
  | .object fields => "\x7b" ++ ", ".intercalate (shownFields fields) ++ "\x7d"

/-- The items of a list in a message. -/
def shownItems : List Json → List String
  | [] => []
  | item :: items => shown item :: shownItems items

/-- The fields of an object in a message. -/
def shownFields : List (String × Json) → List String
  | [] => []
  | (name, value) :: fields => (Text.Quoted.quote name ++ ": " ++ shown value) :: shownFields fields

end

/-- A value in a message; a text that stands alone has no quotes. -/
def plain : Json → String
  | .string s => s
  | value => shown value

/-- The number that a value is.  Texts are read as numbers, truth values count as one and zero. -/
def toFloat : Json → Except Failure Float
  | .float x => .ok x
  | .bool b => .ok (if b then 1.0 else 0.0)
  | .int n =>
    match Number.ofWhole? n with
    | some x => .ok x
    | none => .error .overflow
  | .string s =>
    match Number.ofText? s with
    | some x => .ok x
    | none => .error (.invalid (.notANumber s))
  | _ => .error (.mistyped .other)

end Json
end FormulaEvolution
