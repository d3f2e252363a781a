/-
# JSON values

Documents as values.  Whole numbers and numbers with a fraction or an exponent are told apart, and
the fields of an object keep the order in which they first came.

A later field with the name of an earlier one takes the earlier one's place.
-/
import FormulaEvolution.Dictionary
import FormulaEvolution.Number.Double

namespace FormulaEvolution

/-- A JSON value. -/
inductive Json where
  | null
  | bool (b : Bool)
  | int (n : Int)
  | float (x : Float)
  | string (s : String)
  | list (items : List Json)
  | object (fields : List (String × Json))
  deriving Inhabited

namespace Json

/-! ## 1. Objects -/

/-- The value of a field of an object; anything else has no fields. -/
def get? (name : String) : Json → Option Json
  | .object fields => Dictionary.value? fields name
  | _ => none

/-! ## 2. Views -/

/-- A value is false when it is null, zero, or empty. -/
def truthy : Json → Bool
  | .null => false
  | .bool b => b
  | .int n => n ≠ 0
  | .float x => x != 0.0
  | .string s => s ≠ ""
  | .list items => !items.isEmpty
  | .object fields => !fields.isEmpty

end Json
end FormulaEvolution
