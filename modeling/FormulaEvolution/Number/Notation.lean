/-
# How numbers are written

The written forms of a double, each a choice of digits and a layout:

* `exactText` is the shortest text that reads back: positional for numbers between `1e-4` and
  `1e16`, always with a point or an exponent;
* `significantText n` keeps `n` significant digits and drops zeros at the end: positional for
  numbers between `1e-4` and `10 ^ n`;
* `fixedText n` has `n` places after the point.

Exponents have a sign and at least two digits.
-/
import FormulaEvolution.Number.Decimal

namespace FormulaEvolution
namespace Number

/-! ## 1. Layout of digits -/

/-- How digits are laid out: positional below `10 ^ positionalTo` and from `10 ^ -4` on, with a
`.0` after a whole number when `keepPoint`. -/
structure Layout where
  positionalTo : Int
  keepPoint : Bool
  deriving DecidableEq, Repr

/-- The layout of the shortest text: a point is always there, so that the text reads as a
number with a fraction and not as a whole number. -/
def Layout.exact : Layout := ⟨16, true⟩

/-- The layout of a text with at most `n` significant digits. -/
def Layout.significant (n : Nat) : Layout := ⟨n, false⟩

/-- Smallest place that is still written positionally. -/
def positionalFrom : Int := -4

/-- The exponent part: sign and at least two digits. -/
def exponentText (e : Int) : List Char :=
  let ds := Nat.toDigits 10 e.natAbs
  'e' :: (if e < 0 then '-' else '+') :: (if ds.length < 2 then '0' :: ds else ds)

/-- Digits with the point after the first `whole` of them; zeros fill up the whole part. -/
def pointed (keepPoint : Bool) (digits : List Char) (whole : Nat) : List Char :=
  let front := digits.take whole ++ List.replicate (whole - digits.length) '0'
  match digits.drop whole with
  | [] => if keepPoint then front ++ ['.', '0'] else front
  | rest => front ++ '.' :: rest

/-- Lay out a decimal. -/
def Layout.apply (l : Layout) (d : Decimal) : List Char :=
  if d.place < positionalFrom || l.positionalTo ≤ d.place then
    pointed false d.digits 1 ++ exponentText d.place
  else if d.place < 0 then
    '0' :: '.' :: (List.replicate (-d.place - 1).toNat '0' ++ d.digits)
  else pointed l.keepPoint d.digits (d.place.toNat + 1)

/-! ## 2. Texts of doubles -/

/-- A minus sign in front of the text of a negative number. -/
def signed (negative : Bool) (text : List Char) : String :=
  String.ofList (if negative then '-' :: text else text)

/-- Write a double, given how the magnitude of a finite one is written. -/
def textBy (magnitude : Nat → Int → List Char) (x : Float) : String :=
  match decode x with
  | .nan => "nan"
  | .infinite negative => signed negative "inf".toList
  | .finite negative m q => signed negative (magnitude m q)

/-- The shortest text that reads back as `x`. -/
def exactText (x : Float) : String :=
  textBy (fun m q => Layout.exact.apply (shortest m q)) x

/-- `x` with at most `n` significant digits, for `n` at least one. -/
def significantText (n : Nat) (x : Float) : String :=
  textBy (fun m q => (Layout.significant n).apply (rounded n m q)) x

/-- The digits of a magnitude with `n` places after the point. -/
def fixedDigits (n m : Nat) (q : Int) : List Char :=
  let (up, down) := power 2 q
  let ds := Nat.toDigits 10 (roundDiv (m * up * Nat.pow 10 n) down)
  let ds := List.replicate (n + 1 - ds.length) '0' ++ ds
  pointed false ds (ds.length - n)

/-- `x` with `n` places after the point. -/
def fixedText (n : Nat) (x : Float) : String := textBy (fixedDigits n) x

/-- A number inside an expression: six significant digits. -/
def briefText (x : Float) : String := significantText 6 x

/-- An evaluated number: ten significant digits, so that the last bits do not matter. -/
def roundedText (x : Float) : String := significantText 10 x

end Number
end FormulaEvolution
