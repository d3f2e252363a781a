/-
# Reading numbers

The numbers that a text may hold: blanks around it, an optional sign, then digits with an
optional point and exponent, or a word for an infinity or for no number.  A single underscore may
stand between two digits.  The value is the nearest double.
-/
import FormulaEvolution.Number.Double
import FormulaEvolution.Text.Blank

namespace FormulaEvolution
namespace Number

/-! ## 1. Digits -/

/-- The number that decimal digits spell. -/
def ofDigits (ds : List Char) : Nat :=
  ds.foldl (fun n d => 10 * n + (d.toNat - '0'.toNat)) 0

/-- Decimal exponents beyond this are settled without arithmetic: a coefficient of `n` digits
cannot bring `10 ^ (400 + n)` back into the range of doubles. -/
def exponentReach : Int := 400

/-- The double nearest to `coefficient * 10 ^ exponent`. -/
def ofScaled (coefficient : Nat) (digits : Nat) (exponent : Int) : Float :=
  if coefficient = 0 || exponent + digits < -exponentReach then 0.0
  else if exponentReach < exponent then infinity
  else if 0 ≤ exponent then Float.ofScientific (coefficient * Nat.pow 10 exponent.toNat) false 0
  else Float.ofScientific coefficient true (-exponent).toNat

/-- A number in decimal notation: digits before and after the point, and an exponent. -/
structure Numeral where
  negative : Bool
  whole : List Char
  fraction : List Char
  exponent : Int
  deriving Repr

/-- The double nearest to a numeral. -/
def Numeral.toFloat (n : Numeral) : Float :=
  let ds := n.whole ++ n.fraction
  let x := ofScaled (ofDigits ds) ds.length (n.exponent - n.fraction.length)
  if n.negative then -x else x

/-! ## 2. Signs, exponents, underscores -/

/-- Split off a sign. -/
def readSign : List Char → Bool × List Char
  | '-' :: cs => (true, cs)
  | '+' :: cs => (false, cs)
  | cs => (false, cs)

/-- The exponent part at the end of a text: nothing, or a mark, a sign and digits. -/
def readExponent? : List Char → Option Int
  | [] => some 0
  | c :: cs =>
    if c = 'e' || c = 'E' then
      let (negative, ds) := readSign cs
      if ds ≠ [] && ds.all Char.isDigit then
        some (if negative then -(ofDigits ds : Int) else ofDigits ds)
      else none
    else none

/-- Remove underscores that stand between two digits; refuse any other. -/
def dropUnderscores? (previousIsDigit : Bool) : List Char → Option (List Char)
  | [] => some []
  | '_' :: d :: cs =>
    if previousIsDigit && d.isDigit then (dropUnderscores? true cs).map (d :: ·) else none
  | c :: cs => if c = '_' then none else (dropUnderscores? c.isDigit cs).map (c :: ·)

/-! ## 3. Whole texts -/

/-- Digits with an optional point and exponent; at least one digit is there. -/
def readMagnitude? (negative : Bool) (cs : List Char) : Option Numeral :=
  let whole := cs.takeWhile Char.isDigit
  let rest := cs.dropWhile Char.isDigit
  let (fraction, rest) :=
    match rest with
    | '.' :: rest => (rest.takeWhile Char.isDigit, rest.dropWhile Char.isDigit)
    | _ => ([], rest)
  if whole = [] && fraction = [] then none
  else (readExponent? rest).map (⟨negative, whole, fraction, ·⟩)

/-- Words for values without digits, in lower case. -/
def readWord? (word : String) : Option Float :=
  if word = "inf" || word = "infinity" then some infinity
  else if word = "nan" then some notANumber
  else none

/-- Read a number out of a whole text. -/
def ofText? (text : String) : Option Float := do
  let cs ← dropUnderscores? false (Text.trim text.toList)
  let (negative, body) := readSign cs
  match readWord? (String.ofList (body.map Char.toLower)) with
  | some x => some (if negative then -x else x)
  | none => (readMagnitude? negative body).map Numeral.toFloat

/-- Read a whole number out of a whole text: a sign and digits. -/
def wholeOfText? (text : String) : Option Int := do
  let cs ← dropUnderscores? false (Text.trim text.toList)
  let (negative, ds) := readSign cs
  if ds ≠ [] && ds.all Char.isDigit then
    some (if negative then -(ofDigits ds : Int) else ofDigits ds)
  else none

end Number
end FormulaEvolution
