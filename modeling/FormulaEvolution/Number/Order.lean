/-
# Whole numbers and doubles

Whole numbers of any size and doubles are compared by what they stand for, not by what they round
to.  Both are `Shape`s, and two finite shapes are compared after scaling them to the smaller of the
two exponents, where both are whole.

What is no number is neither below nor above nor equal to anything.

The way back, from a double to a whole number, either drops what is after the point or rounds.
-/
import FormulaEvolution.Number.Decimal

namespace FormulaEvolution
namespace Number
namespace Shape

/-! ## 1. Comparing -/

/-- The shape of a whole number. -/
def ofWhole (n : Int) : Shape := .finite (decide (n < 0)) n.natAbs 0

/-- The whole number `m * 2 ^ places` with a sign. -/
def scaled (negative : Bool) (m places : Nat) : Int :=
  if negative then -((m * Nat.pow 2 places : Nat) : Int) else (m * Nat.pow 2 places : Nat)

/-- Compare two shapes, given how finite ones compare once they are whole. -/
def compareBy (finite : Int → Int → Bool) (infinite : Bool → Bool → Bool) : Shape → Shape → Bool
  | .nan, _ => false
  | _, .nan => false
  | .infinite a, .infinite b => infinite a b
  | .infinite a, .finite .. => a
  | .finite .., .infinite b => !b
  | .finite a m q, .finite b k r =>
    finite (scaled a m (q - min q r).toNat) (scaled b k (r - min q r).toNat)

/-- Strictly below. -/
def less : Shape → Shape → Bool := compareBy (fun a b => decide (a < b)) (fun a b => a && !b)

/-- Below or equal. -/
def atMost : Shape → Shape → Bool := compareBy (fun a b => decide (a ≤ b)) (fun a b => a || !b)

theorem scaled_ofWhole (n : Int) : scaled (decide (n < 0)) n.natAbs 0 = n := by
  unfold scaled
  by_cases h : n < 0
  · simp only [h, decide_true, if_true, Nat.pow_eq, Nat.pow_zero, Nat.mul_one]
    omega
  · simp only [h, decide_false]
    simp only [Bool.false_eq_true, if_false, Nat.pow_eq, Nat.pow_zero, Nat.mul_one]
    omega

/-- **Whole numbers compare as whole numbers.** -/
@[simp] theorem less_ofWhole (a b : Int) : less (ofWhole a) (ofWhole b) = decide (a < b) := by
  simp [less, ofWhole, compareBy, scaled_ofWhole]

@[simp] theorem atMost_ofWhole (a b : Int) : atMost (ofWhole a) (ofWhole b) = decide (a ≤ b) := by
  simp [atMost, ofWhole, compareBy, scaled_ofWhole]

/-- What is no number is below nothing. -/
@[simp] theorem less_nan (s : Shape) : less .nan s = false := by cases s <;> rfl

end Shape

/-! ## 2. Whole numbers near a double -/

/-- The whole number that a finite shape gives, by how a quotient of natural numbers is made
whole. -/
def Shape.wholeBy (quotient : Nat → Nat → Nat) : Shape → Int
  | .finite negative m q =>
    let (up, down) := power 2 q
    let size : Int := quotient (m * up) down
    if negative then -size else size
  | _ => 0

/-- The whole number of a double without what is after the point; zero if it is not finite. -/
def towardsZero (x : Float) : Int := (decode x).wholeBy (· / ·)

/-- The whole number nearest to a double, of two the even one; zero if it is not finite. -/
def nearest (x : Float) : Int := (decode x).wholeBy roundDiv

end Number
end FormulaEvolution
