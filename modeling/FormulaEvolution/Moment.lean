/-
# Moments

Times are doubles: seconds since the start of 1970.  A moment is written with its date and its time
of day, and with six places after the second if it is not a whole one.

Dates are counted in eras of 400 years, all of which have the same number of days; a year is taken
to begin in March, so that the day that only some years have is the last one of its year.
-/
import FormulaEvolution.Failure
import FormulaEvolution.Number.Order

namespace FormulaEvolution
namespace Moment

/-! ## 1. Seconds and parts of seconds -/

/-- How many parts of a second are told apart. -/
def partsPerSecond : Int := 1000000

/-- The second that a time is in and the parts of it that have passed. -/
def seconds (time : Float) : Int × Nat :=
  let whole := Number.towardsZero time
  let parts := Number.nearest ((time - Float.ofInt whole) * 1000000.0)
  let total := whole * partsPerSecond + parts
  (total.fdiv partsPerSecond, (total.fmod partsPerSecond).toNat)

/-! ## 2. Dates -/

/-- The days of an era. -/
def daysPerEra : Nat := 146097

/-- The days from the first of March of year 0 to the start of 1970. -/
def epochDays : Int := 719468

/-- The year within its era, beginning in March, of a day of the era. -/
def yearOfEra (day : Nat) : Nat := (day - day / 1460 + day / 36524 - day / 146096) / 365

/-- The year, the month and the day of the month of a day, counted from the start of 1970. -/
def dateOf (day : Int) : Int × Nat × Nat :=
  let shifted := day + epochDays
  let era := shifted.fdiv daysPerEra
  let dayOfEra := (shifted.fmod daysPerEra).toNat
  let year := yearOfEra dayOfEra
  let dayOfYear := dayOfEra - (365 * year + year / 4 - year / 100)
  let marchMonth := (5 * dayOfYear + 2) / 153
  let dayOfMonth := dayOfYear - (153 * marchMonth + 2) / 5 + 1
  let month := if marchMonth < 10 then marchMonth + 3 else marchMonth - 9
  (year + era * 400 + (if month ≤ 2 then 1 else 0), month, dayOfMonth)

/-! ## 3. Texts -/

/-- A number with zeros in front, so that it has a number of places. -/
def padded (places n : Nat) : String :=
  let ds := Nat.toDigits 10 n
  String.ofList (List.replicate (places - ds.length) '0' ++ ds)

/-- The text of a moment; only years of one to four digits have one. -/
def text (time : Float) : Except Failure String :=
  match Number.decode time with
  | .nan => .error (.invalid (.other "cannot convert float NaN to integer"))
  | .infinite _ => .error .boundless
  | .finite .. =>
    let (second, parts) := seconds time
    let (year, month, day) := dateOf (second.fdiv 86400)
    if year < 1 ∨ 9999 < year then
      .error (.invalid (.other ("year " ++ toString year ++ " is out of range")))
    else
      let ofDay := (second.fmod 86400).toNat
      .ok (padded 4 year.toNat ++ "-" ++ padded 2 month ++ "-" ++ padded 2 day ++ "T" ++
        padded 2 (ofDay / 3600) ++ ":" ++ padded 2 (ofDay / 60 % 60) ++ ":" ++
        padded 2 (ofDay % 60) ++ (if parts = 0 then "" else "." ++ padded 6 parts))

end Moment

/-! ## 4. Clocks -/

/-- The readings that a clock will give; the last one again and again. -/
abbrev Clock := List Float

/-- Read a clock. -/
def Clock.read : Clock → Float × Clock
  | [] => (0.0, [])
  | [time] => (time, [time])
  | time :: rest => (time, rest)

end FormulaEvolution
