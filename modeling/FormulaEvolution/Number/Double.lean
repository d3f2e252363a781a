/-
# What a double stands for

The bits of a `Float`, taken apart: a sign, and either a natural number times a power of two, an
infinity, or no number at all.  Everything the library writes about a number goes through
`decode`, so that texts are fixed by exact arithmetic on natural numbers and not by the
arithmetic of the machine.

`rank` places the numbers on a line of integers.  Two doubles that are numbers compare as their
ranks do, which is how fitness values are put in order.
-/

namespace FormulaEvolution
namespace Number

/-! ## 1. Decoding -/

/-- The value of a double.  `finite negative m q` is the number `m * 2 ^ q` with a sign. -/
inductive Shape where
  | nan
  | infinite (negative : Bool)
  | finite (negative : Bool) (m : Nat) (q : Int)
  deriving DecidableEq, Repr

/-- The bit of the sign: `2 ^ 63`. -/
def signBit : Nat := 0x8000000000000000

/-- The bit that a normal double has without storing it: `2 ^ 52`. -/
def hiddenBit : Nat := 0x10000000000000

/-- Largest exponent field: infinities and the absent numbers. -/
def topExponent : Nat := 2047

/-- The exponent of the last place of a subnormal double. -/
def lastPlace : Int := -1074

/-- Take a double apart.  A normal double has the hidden bit in its whole part. -/
def decode (x : Float) : Shape :=
  let bits := x.toBits.toNat
  let negative := decide (signBit ≤ bits)
  let field := bits / hiddenBit % 2048
  let fraction := bits % hiddenBit
  if field = topExponent then
    if fraction = 0 then .infinite negative else .nan
  else if field = 0 then .finite negative fraction lastPlace
  else .finite negative (hiddenBit + fraction) (lastPlace + (field - 1 : Nat))

/-- `x` is a number, and not an infinite one. -/
def isFinite (x : Float) : Bool :=
  match decode x with
  | .finite .. => true
  | _ => false

/-- `x` stands for no number. -/
def isNaN (x : Float) : Bool :=
  match decode x with
  | .nan => true
  | _ => false

/-! ## 2. The line of doubles -/

/-- Where a double lies on the line of integers: its bits without the sign, negated when the
sign is set.  Both zeros lie at `0`. -/
def rank (x : Float) : Int :=
  let bits := x.toBits.toNat
  if signBit ≤ bits then -((bits - signBit : Nat) : Int) else (bits : Int)

/-! ## 3. Named values -/

/-- Positive infinity. -/
def infinity : Float := Float.ofBits 0x7FF0000000000000

/-- The value that is no number. -/
def notANumber : Float := Float.ofBits 0x7FF8000000000000

/-- The largest finite double. -/
def largest : Float := Float.ofBits 0x7FEFFFFFFFFFFFFF

/-! ## 4. Whole numbers as doubles -/

/-- Whole numbers from this size on round to infinity: the midpoint between the largest double
and the next power of two. -/
def overflowBound : Nat := Nat.pow 2 1024 - Nat.pow 2 970

/-- The double nearest to a whole number, unless there is none. -/
def ofWhole? (n : Int) : Option Float :=
  if n.natAbs < overflowBound then
    let x := Float.ofScientific n.natAbs false 0
    some (if n < 0 then -x else x)
  else none

end Number
end FormulaEvolution
