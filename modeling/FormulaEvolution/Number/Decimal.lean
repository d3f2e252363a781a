/-
# Decimal digits of a double

Two ways to choose the decimal digits of `m * 2 ^ q`, both in exact arithmetic:

* `rounded` keeps a given count of significant digits and rounds to the nearest, a half going to
  the even neighbour;
* `shortest` keeps as few digits as still read back as the same double, and of those the nearest.

The interval of numbers that read back as `m * 2 ^ q` reaches half a unit of the last place to
either side, its ends included when `m` is even; below a power of two it reaches a quarter only.
-/
import FormulaEvolution.Number.Double

namespace FormulaEvolution
namespace Number

/-! ## 1. Rounding a quotient -/

/-- `num / den` to the nearest whole number, a half going to the even neighbour. -/
def roundDiv (num den : Nat) : Nat :=
  let whole := num / den
  let rest := num % den
  if 2 * rest < den then whole
  else if den < 2 * rest then whole + 1
  else if whole % 2 = 0 then whole else whole + 1

/-- A quotient is within one of its rounded value. -/
theorem roundDiv_eq_or (num den : Nat) :
    roundDiv num den = num / den ∨ roundDiv num den = num / den + 1 := by
  simp only [roundDiv]
  split
  · exact Or.inl rfl
  · split
    · exact Or.inr rfl
    · split
      · exact Or.inl rfl
      · exact Or.inr rfl

/-! ## 2. Scales -/

/-- A power with a signed exponent, as numerator and denominator. -/
def power (base : Nat) (e : Int) : Nat × Nat :=
  if 0 ≤ e then (base.pow e.toNat, 1) else (1, base.pow (-e).toNat)

/-- How many decimal digits a whole number has. -/
def digitCount (n : Nat) : Nat := (Nat.toDigits 10 n).length

/-- The place of the leading decimal digit of `num / den`: the `e` with
`10 ^ e ≤ num / den < 10 ^ (e + 1)`. -/
def leadingPlace (num den : Nat) : Int :=
  let guess : Int := (digitCount num : Int) - (digitCount den : Int)
  let (up, down) := power 10 guess
  if den * up ≤ num * down then guess else guess - 1

/-! ## 3. Digits -/

/-- Decimal digits, most significant first, and the place of the first of them: the number
`d.ddd * 10 ^ place`.  No digit at the end is zero unless it is the only one. -/
structure Decimal where
  digits : List Char
  place : Int
  deriving DecidableEq, Repr

/-- Drop zeros at the end of a list of digits that is given from the last one on. -/
def dropZeros : List Char → List Char
  | '0' :: d :: rest => dropZeros (d :: rest)
  | ds => ds

/-- The decimal `coefficient * 10 ^ exponent`, without zeros at its end. -/
def Decimal.ofScaled (coefficient : Nat) (exponent : Int) : Decimal :=
  let ds := Nat.toDigits 10 coefficient
  ⟨(dropZeros ds.reverse).reverse, exponent + (ds.length - 1 : Nat)⟩

/-- `count` significant digits of `m * 2 ^ q`, correctly rounded. -/
def rounded (count : Nat) (m : Nat) (q : Int) : Decimal :=
  if m = 0 then ⟨['0'], 0⟩
  else
    let (up2, down2) := power 2 q
    let last := leadingPlace (m * up2) down2 - (count - 1 : Nat)
    let (up10, down10) := power 10 last
    .ofScaled (roundDiv (m * up2 * down10) (down2 * up10)) last

/-- The interval that reads back as one double, measured in quarters of its last place: from
`low` to `high` around `middle`, the ends included when `closed`. -/
structure Interval where
  low : Nat
  middle : Nat
  high : Nat
  closed : Bool

/-- The interval of `m * 2 ^ q`.  Just below a power of two the doubles are twice as dense,
except at the dense end of the range. -/
def Interval.around (m : Nat) (q : Int) : Interval :=
  { low := if m = hiddenBit ∧ lastPlace < q then 4 * m - 1 else 4 * m - 2
    middle := 4 * m
    high := 4 * m + 2
    closed := m % 2 = 0 }

/-- Whether the grid point `c` lies in the interval, when one quarter of the last place is
`num / den` of a grid step. -/
def Interval.holds (i : Interval) (num den c : Nat) : Bool :=
  if i.closed then i.low * num ≤ c * den && c * den ≤ i.high * num
  else i.low * num < c * den && c * den < i.high * num

/-- The point of a decimal grid that reads back and is nearest to the number, if any does. -/
def gridPoint? (i : Interval) (num den : Nat) : Option Nat :=
  let below := i.middle * num / den
  match i.holds num den below, i.holds num den (below + 1) with
  | true, true => some (roundDiv (i.middle * num) den)
  | true, false => some below
  | false, true => some (below + 1)
  | false, false => none

/-- Try grids of more and more digits. -/
def shortestFrom (i : Interval) (q lead : Int) : Nat → Nat → Decimal
  | 0, count =>
    let last := lead - (count - 1 : Nat)
    let (up2, down2) := power 2 (q - 2)
    let (up10, down10) := power 10 last
    .ofScaled (roundDiv (i.middle * up2 * down10) (down2 * up10)) last
  | tries + 1, count =>
    let last := lead - (count - 1 : Nat)
    let (up2, down2) := power 2 (q - 2)
    let (up10, down10) := power 10 last
    match gridPoint? i (up2 * down10) (down2 * up10) with
    | some c => .ofScaled c last
    | none => shortestFrom i q lead tries (count + 1)

/-- The fewest digits that read back as `m * 2 ^ q`.  Seventeen always do. -/
def shortest (m : Nat) (q : Int) : Decimal :=
  if m = 0 then ⟨['0'], 0⟩
  else
    let (up2, down2) := power 2 q
    shortestFrom (.around m q) q (leadingPlace (m * up2) down2) 16 1

end Number
end FormulaEvolution
