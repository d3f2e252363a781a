/-
# Rounding to the nearest double

A double other than zero is `m * 2 ^ q` for one canonical `m` and `q` (`Canonical`).  A number in its
interval (`Interval.Contains`) is rounded to it, from whatever mantissa, exponent and accuracy it is
given by (`roundWithAccuracy_eq`).

An extended mantissa stands for a number with its whole part, with a half or not, and with something
or nothing beyond that (`Represents`).  A shift to the right halves the number and keeps that.
-/
import FormulaEvolution.Number.Decimal
import Mathlib.Algebra.Order.Field.Power
import Mathlib.Tactic.FieldSimp
import Mathlib.Tactic.Linarith
import Mathlib.Tactic.Positivity
import Mathlib.Tactic.Ring

namespace FormulaEvolution
namespace Number

open Float.Model Float.Model.UnpackedFloat

/-! ## 1. Extended mantissas -/

/-- The number that an extended mantissa stands for: its mantissa, a half if the next bit is set, and
a rest of less than a half, which is there if the last bit is set. -/
def Represents (em : ExtendedMantissa) (v : ℚ) : Prop :=
  ∃ rest : ℚ, 0 ≤ rest ∧ rest < 1 / 2 ∧ (em.stickyBit = true ↔ rest ≠ 0) ∧
    v = em.mantissa + (if em.roundBit then 1 / 2 else 0) + rest

theorem represents_exact (m : Nat) : Represents (.ofMantissaAndAccuracy m .exact) m :=
  ⟨0, le_refl 0, by norm_num, by simp [ExtendedMantissa.ofMantissaAndAccuracy],
    by simp [ExtendedMantissa.ofMantissaAndAccuracy]⟩

/-- A whole number and a proper fraction. -/
theorem represents_fraction (m : Nat) {num den : Nat} (h : num < den) :
    Represents (.ofMantissaAndAccuracy m (accuracyOfFraction num den)) (m + num / den) := by
  have hden : (0 : ℚ) < den := by exact_mod_cast Nat.lt_of_le_of_lt (Nat.zero_le num) h
  have hlt : (num : ℚ) / den < 1 := by
    rw [div_lt_one hden]
    exact_mod_cast h
  have hnonneg : (0 : ℚ) ≤ num / den := by positivity
  by_cases hzero : num = 0
  · rw [accuracyOfFraction, if_pos hzero, hzero]
    simpa using represents_exact m
  · have hpos : (0 : ℚ) < num / den := by
      have : (0 : ℚ) < num := by exact_mod_cast Nat.pos_of_ne_zero hzero
      positivity
    rw [accuracyOfFraction, if_neg hzero]
    rcases Nat.lt_trichotomy (2 * num) den with hlow | hhalf | hhigh
    · have hless : (num : ℚ) / den < 1 / 2 := by
        rw [div_lt_div_iff₀ hden (by norm_num)]
        exact_mod_cast (by omega : num * 2 < 1 * den)
      rw [Nat.compare_eq_lt.mpr hlow]
      exact ⟨num / den, hnonneg, hless, by simp [ExtendedMantissa.ofMantissaAndAccuracy, hpos.ne'],
        by simp [ExtendedMantissa.ofMantissaAndAccuracy]⟩
    · have heq : (num : ℚ) / den = 1 / 2 := by
        rw [div_eq_div_iff hden.ne' (by norm_num)]
        exact_mod_cast (by omega : num * 2 = 1 * den)
      rw [Nat.compare_eq_eq.mpr hhalf, heq]
      exact ⟨0, le_refl 0, by norm_num, by simp [ExtendedMantissa.ofMantissaAndAccuracy],
        by simp [ExtendedMantissa.ofMantissaAndAccuracy]⟩
    · have hmore : 1 / 2 < (num : ℚ) / den := by
        rw [div_lt_div_iff₀ (by norm_num) hden]
        exact_mod_cast (by omega : 1 * den < num * 2)
      rw [Nat.compare_eq_gt.mpr hhigh]
      refine ⟨num / den - 1 / 2, by linarith, by linarith, ?_, ?_⟩
      · simp only [ExtendedMantissa.ofMantissaAndAccuracy, true_iff]
        linarith
      · simp only [ExtendedMantissa.ofMantissaAndAccuracy, if_true]
        ring

section Represented

variable {em : ExtendedMantissa} {v : ℚ}

theorem Represents.bounds (h : Represents em v) : (em.mantissa : ℚ) ≤ v ∧ v < em.mantissa + 1 := by
  obtain ⟨rest, hnonneg, hless, -, rfl⟩ := h
  split <;> constructor <;> linarith

/-- One shift to the right halves the number. -/
theorem Represents.shiftRightOne (h : Represents em v) : Represents em.shiftRightOne (v / 2) := by
  obtain ⟨rest, hnonneg, hless, hsticky, rfl⟩ := h
  have hhalf : (em.shiftRightOne.mantissa : ℚ) + (if em.shiftRightOne.roundBit then 1 / 2 else 0) =
      em.mantissa / 2 := by
    have hsplit : (em.mantissa : ℚ) =
        2 * ((em.mantissa / 2 : Nat) : ℚ) + ((em.mantissa % 2 : Nat) : ℚ) := by
      exact_mod_cast (Nat.div_add_mod em.mantissa 2).symm
    rw [hsplit]
    rcases Nat.mod_two_eq_zero_or_one em.mantissa with hmod | hmod <;>
      simp [ExtendedMantissa.shiftRightOne, hmod]
    ring
  refine ⟨(if em.roundBit then 1 / 4 else 0) + rest / 2, ?_, ?_, ?_, ?_⟩
  · split <;> linarith
  · split <;> linarith
  · simp only [ExtendedMantissa.shiftRightOne, Bool.or_eq_true, hsticky]
    cases em.roundBit with
    | true =>
      simp only [true_or, if_true, true_iff]
      linarith
    | false => simp
  · rw [hhalf]
    split <;> ring

theorem Represents.shiftRight (h : Represents em v) (k : Nat) :
    Represents (em >>> k) (v / 2 ^ k) := by
  induction k with
  | zero => simpa [HShiftRight.hShiftRight, Nat.repeat] using h
  | succ k ih =>
    have hstep : em >>> (k + 1) = (em >>> k).shiftRightOne := rfl
    have hpow : v / 2 ^ (k + 1) = v / 2 ^ k / 2 := by rw [pow_succ, div_div]
    rw [hstep, hpow]
    exact ih.shiftRightOne

/-- A number within a half of a whole number is rounded to it, but at exactly a half from it only if
it is even. -/
theorem Represents.rounded (h : Represents em v) {k : Nat} (hlow : (k : ℚ) - 1 / 2 ≤ v)
    (hhigh : v ≤ k + 1 / 2) (hodd : k % 2 = 1 → (k : ℚ) - 1 / 2 < v ∧ v < k + 1 / 2) :
    em.roundedMantissa = k := by
  obtain ⟨rest, hnonneg, hless, hsticky, rfl⟩ := h
  rcases em with ⟨m, roundBit, stickyBit⟩
  simp only at hlow hhigh hodd hsticky
  cases roundBit with
  | false =>
    -- Less than a half is dropped.
    have hm : m = k := by
      have hle : (k : ℚ) < m + 1 := by simp at hlow; linarith
      have hge : (m : ℚ) < k + 1 := by simp at hhigh; linarith
      have hle' : k < m + 1 := by exact_mod_cast hle
      have hge' : m < k + 1 := by exact_mod_cast hge
      omega
    cases stickyBit <;> exact hm
  | true =>
    cases stickyBit with
    | false =>
      -- Exactly a half goes to the even neighbour.
      have hrest : rest = 0 := by simpa using hsticky
      simp only [hrest, if_true, add_zero] at hlow hhigh hodd
      have hle : (k : ℚ) ≤ m + 1 := by linarith
      have hge : (m : ℚ) ≤ k := by linarith
      have hle' : k ≤ m + 1 := by exact_mod_cast hle
      have hge' : m ≤ k := by exact_mod_cast hge
      have heven : k % 2 = 0 := by
        by_contra hnot
        obtain ⟨hlow', hhigh'⟩ := hodd (by omega)
        have h1 : (k : ℚ) < m + 1 := by linarith
        have h2 : (m : ℚ) < k := by linarith
        have h1' : k < m + 1 := by exact_mod_cast h1
        have h2' : m < k := by exact_mod_cast h2
        omega
      show m + m % 2 = k
      omega
    | true =>
      -- More than a half is rounded up.
      have hpos : 0 < rest := lt_of_le_of_ne hnonneg (Ne.symm (hsticky.mp rfl))
      simp only [if_true] at hlow hhigh
      have hle : (k : ℚ) < m + 2 := by linarith
      have hge : (m : ℚ) < k := by linarith
      have hle' : k < m + 2 := by exact_mod_cast hle
      have hge' : m < k := by exact_mod_cast hge
      show m + 1 = k
      omega

end Represented

/-! ## 2. Canonical doubles -/

/-- The one way to write a double other than zero: the mantissa has 53 bits, or fewer if the exponent
is the least. -/
structure Canonical (m : Nat) (q : Int) : Prop where
  positive : 0 < m
  upper : m < 2 ^ 53
  lower : 2 ^ 52 ≤ m ∨ q = -1074
  least : -1074 ≤ q

/-- A number lies in an interval that is measured in quarters of the last place. -/
def Interval.Contains (i : Interval) (q : Int) (v : ℚ) : Prop :=
  (i.low * 2 ^ (q - 2) ≤ v ∧ v ≤ i.high * 2 ^ (q - 2)) ∧
    (i.closed = false → i.low * 2 ^ (q - 2) < v ∧ v < i.high * 2 ^ (q - 2))

section Near

variable {m : Nat} {q : Int} {v : ℚ}

theorem quarter_mul (q : Int) (n : ℚ) : n * 2 ^ (q - 2) = n / 4 * 2 ^ q := by
  rw [zpow_sub₀ (by norm_num)]
  ring

/-- The upper end lies half a unit of the last place above. -/
theorem Interval.high_around (m : Nat) (q : Int) :
    ((Interval.around m q).high : ℚ) * 2 ^ (q - 2) = (m + 1 / 2) * 2 ^ q := by
  rw [quarter_mul]
  simp only [Interval.around]
  push_cast
  ring

/-- The lower end lies half a unit below, or a quarter if it lies below a power of two. -/
theorem Interval.low_around (hm : 0 < m) (q : Int) :
    ((Interval.around m q).low : ℚ) * 2 ^ (q - 2) =
      (if m = hiddenBit ∧ lastPlace < q then (m - 1 / 4 : ℚ) else m - 1 / 2) * 2 ^ q := by
  rw [quarter_mul]
  simp only [Interval.around]
  split
  · rw [Nat.cast_sub (by omega)]
    push_cast
    ring
  · rw [Nat.cast_sub (by omega)]
    push_cast
    ring

/-- What lies in the interval of a double is within half a unit of the last place, within a quarter
below a power of two, and not at the ends if the mantissa is odd. -/
theorem Interval.Contains.near (hc : Canonical m q) (h : (Interval.around m q).Contains q v) :
    ((m - 1 / 2 : ℚ) * 2 ^ q ≤ v ∧ v ≤ (m + 1 / 2) * 2 ^ q) ∧
      (m % 2 = 1 → (m - 1 / 2 : ℚ) * 2 ^ q < v ∧ v < (m + 1 / 2) * 2 ^ q) ∧
        (m = 2 ^ 52 → -1074 < q → (m - 1 / 4 : ℚ) * 2 ^ q ≤ v) := by
  have hunit : (0 : ℚ) < 2 ^ q := by positivity
  have hhalf : (m - 1 / 2 : ℚ) * 2 ^ q ≤
      (if m = hiddenBit ∧ lastPlace < q then (m - 1 / 4 : ℚ) else m - 1 / 2) * 2 ^ q := by
    refine mul_le_mul_of_nonneg_right ?_ hunit.le
    split <;> linarith
  obtain ⟨⟨hle, hge⟩, hopen⟩ := h
  rw [Interval.low_around hc.positive, Interval.high_around] at hopen
  rw [Interval.low_around hc.positive] at hle
  rw [Interval.high_around] at hge
  refine ⟨⟨hhalf.trans hle, hge⟩, ?_, ?_⟩
  · intro hodd
    obtain ⟨hlt, hgt⟩ := hopen (by simp [Interval.around, hodd])
    exact ⟨hhalf.trans_lt hlt, hgt⟩
  · intro hm hq
    rwa [if_pos ⟨hm, hq⟩] at hle

/-- What is nearer than half a unit of the last place, or a quarter at a power of two, lies in the
interval. -/
theorem contains_of_near (hm : 0 < m)
    (h : |v - m * 2 ^ q| < (if m = hiddenBit then 1 / 4 else 1 / 2) * 2 ^ q) :
    (Interval.around m q).Contains q v := by
  have hunit : (0 : ℚ) < 2 ^ q := by positivity
  obtain ⟨hlow, hhigh⟩ := abs_lt.mp h
  have hquarter : (if m = hiddenBit then 1 / 4 else 1 / 2 : ℚ) * 2 ^ q ≤ 1 / 2 * 2 ^ q := by
    refine mul_le_mul_of_nonneg_right ?_ hunit.le
    split <;> norm_num
  have hless : ((Interval.around m q).low : ℚ) * 2 ^ (q - 2) < v := by
    have hend : (if m = hiddenBit ∧ lastPlace < q then (m - 1 / 4 : ℚ) else m - 1 / 2) * 2 ^ q ≤
        (m - if m = hiddenBit then 1 / 4 else 1 / 2) * 2 ^ q := by
      refine mul_le_mul_of_nonneg_right ?_ hunit.le
      by_cases hhidden : m = hiddenBit
      · rw [if_pos hhidden]
        split <;> linarith
      · rw [if_neg hhidden, if_neg fun hand => hhidden hand.1]
    rw [Interval.low_around hm]
    linarith
  have hmore : v < ((Interval.around m q).high : ℚ) * 2 ^ (q - 2) := by
    rw [Interval.high_around]
    linarith
  exact ⟨⟨hless.le, hmore.le⟩, fun _ => ⟨hless, hmore⟩⟩

/-- A double lies in its interval. -/
theorem contains_self (hm : 0 < m) : (Interval.around m q).Contains q (m * 2 ^ q) := by
  refine contains_of_near hm ?_
  rw [sub_self, abs_zero]
  split <;> positivity

/-! ## 3. Rounding -/

theorem targetExponent_eq (k : Int) : Format.binary64.targetExponent k = max (k - 53) (-1074) := rfl

/-- A canonical mantissa has its exponent already. -/
theorem Canonical.target (h : Canonical m q) :
    Format.binary64.targetExponent (totalExponent m q) = q := by
  obtain ⟨hpos, hupper, hlower, hleast⟩ := h
  have hlog : m.log2 < 53 := (Nat.log2_lt hpos.ne').mpr hupper
  rw [targetExponent_eq, totalExponent]
  rcases hlower with hnormal | hsubnormal
  · have hlog' : 52 ≤ m.log2 := (Nat.le_log2 hpos.ne').mpr hnormal
    omega
  · omega

/-- Where the first shift of rounding goes: the number keeps 53 bits, or has the least exponent. -/
theorem target_bounds {mantissa : Nat} {exponent : Int} {accuracy : Accuracy}
    (hv : Represents (.ofMantissaAndAccuracy mantissa accuracy) (v / 2 ^ exponent))
    (hexponent : exponent ≤ Format.binary64.targetExponent (totalExponent mantissa exponent)) :
    v < 2 ^ (Format.binary64.targetExponent (totalExponent mantissa exponent) + 53) ∧
      (-1074 < Format.binary64.targetExponent (totalExponent mantissa exponent) →
        (2 : ℚ) ^ (Format.binary64.targetExponent (totalExponent mantissa exponent) + 52) ≤ v) := by
  have hunit : (0 : ℚ) < 2 ^ exponent := by positivity
  have hmantissa : (ExtendedMantissa.ofMantissaAndAccuracy mantissa accuracy).mantissa = mantissa := by
    cases accuracy with
    | exact => rfl
    | inexact o => cases o <;> rfl
  obtain ⟨hle, hlt⟩ := hv.bounds
  rw [hmantissa] at hle hlt
  rw [le_div_iff₀ hunit] at hle
  rw [div_lt_iff₀ hunit] at hlt
  rw [targetExponent_eq, totalExponent] at hexponent ⊢
  constructor
  · have hlog : (mantissa : ℚ) + 1 ≤ 2 ^ ((mantissa.log2 : Int) + 1) := by
      have := Nat.lt_log2_self (n := mantissa)
      exact_mod_cast this
    calc v < (mantissa + 1) * 2 ^ exponent := hlt
      _ ≤ 2 ^ ((mantissa.log2 : Int) + 1) * 2 ^ exponent := mul_le_mul_of_nonneg_right hlog hunit.le
      _ = 2 ^ ((mantissa.log2 : Int) + 1 + exponent) := (zpow_add₀ (by norm_num) _ _).symm
      _ ≤ _ := zpow_le_zpow_right₀ (by norm_num) (by omega)
  · intro htarget
    have hpos : 0 < mantissa := by
      rcases Nat.eq_zero_or_pos mantissa with rfl | hpos
      · have : Nat.log2 0 = 0 := by decide
        omega
      · exact hpos
    have hlog : (2 : ℚ) ^ (mantissa.log2 : Int) ≤ mantissa := by
      have := Nat.log2_self_le hpos.ne'
      exact_mod_cast this
    calc (2 : ℚ) ^ (max ((mantissa.log2 : Int) + 1 + exponent - 53) (-1074) + 52)
        = 2 ^ ((mantissa.log2 : Int) + exponent) := by congr 1; omega
      _ = 2 ^ (mantissa.log2 : Int) * 2 ^ exponent := zpow_add₀ (by norm_num) _ _
      _ ≤ mantissa * 2 ^ exponent := mul_le_mul_of_nonneg_right hlog hunit.le
      _ ≤ v := hle

/-- A number in the interval of a double is shifted to the exponent of the double, or, just below a
power of two, to the exponent before it. -/
theorem target_cases {target : Int} (hc : Canonical m q) (h : (Interval.around m q).Contains q v)
    (hless : v < 2 ^ (target + 53)) (hmore : -1074 < target → (2 : ℚ) ^ (target + 52) ≤ v)
    (hleast : -1074 ≤ target) :
    target = q ∨ target = q - 1 ∧ m = 2 ^ 52 ∧ (2 ^ 52 - 1 / 4 : ℚ) * 2 ^ q ≤ v ∧
      v < 2 ^ 52 * 2 ^ q := by
  have hunit : (0 : ℚ) < 2 ^ q := by positivity
  obtain ⟨⟨hlow, hhigh⟩, -, hbelow⟩ := h.near hc
  obtain ⟨hpos, hupper, hlower, hq⟩ := hc
  have hle : target ≤ q := by
    by_contra hnot
    have hm : (m : ℚ) + 1 ≤ 2 ^ 53 := by exact_mod_cast hupper
    have hlt : (2 : ℚ) ^ (target + 52) < 2 ^ (q + 53) := calc
      (2 : ℚ) ^ (target + 52) ≤ v := hmore (by omega)
      _ ≤ (m + 1 / 2) * 2 ^ q := hhigh
      _ < 2 ^ 53 * 2 ^ q := mul_lt_mul_of_pos_right (by linarith) hunit
      _ = 2 ^ (q + 53) := by rw [zpow_add₀ (by norm_num), mul_comm]; norm_cast
    have := (zpow_lt_zpow_iff_right₀ (by norm_num : (1 : ℚ) < 2)).mp hlt
    omega
  rcases Int.lt_or_eq_of_le hle with hlt | heq
  · refine .inr ?_
    have hnormal : 2 ^ 52 ≤ m := hlower.resolve_right (by omega)
    have hv : v < 2 ^ 52 * 2 ^ q := calc
      v < 2 ^ (target + 53) := hless
      _ ≤ 2 ^ (q + 52) := zpow_le_zpow_right₀ (by norm_num) (by omega)
      _ = 2 ^ 52 * 2 ^ q := by rw [zpow_add₀ (by norm_num), mul_comm]; norm_cast
    have hm : m = 2 ^ 52 := by
      by_contra hne
      have hmore : (2 ^ 52 : ℚ) + 1 ≤ m := by
        have : 2 ^ 52 + 1 ≤ m := by omega
        exact_mod_cast this
      have : (2 ^ 52 : ℚ) * 2 ^ q ≤ (m - 1 / 2) * 2 ^ q :=
        mul_le_mul_of_nonneg_right (by linarith) hunit.le
      linarith
    have hquarter := hbelow hm (by omega)
    rw [hm] at hquarter
    push_cast at hquarter
    refine ⟨?_, hm, hquarter, hv⟩
    have hlt' : (2 : ℚ) ^ (q + 51) < 2 ^ (target + 53) := calc
      (2 : ℚ) ^ (q + 51) = 2 ^ 51 * 2 ^ q := by rw [zpow_add₀ (by norm_num), mul_comm]; norm_cast
      _ ≤ (2 ^ 52 - 1 / 4) * 2 ^ q := mul_le_mul_of_nonneg_right (by norm_num) hunit.le
      _ ≤ v := hquarter
      _ < 2 ^ (target + 53) := hless
    have := (zpow_lt_zpow_iff_right₀ (by norm_num : (1 : ℚ) < 2)).mp hlt'
    omega
  · exact .inl heq

/-- A canonical mantissa is not shifted. -/
theorem shiftToTargetExponent_canonical (hc : Canonical m q) :
    shiftToTargetExponent Format.binary64 m q .exact = (⟨m, false, false⟩, q) := by
  simp only [shiftToTargetExponent, hc.target, shiftToExponent, Int.sub_self, Int.toNat_zero]
  simp [HShiftRight.hShiftRight, Nat.repeat, ExtendedMantissa.ofMantissaAndAccuracy]

/-- A mantissa that has become too long by rounding is shifted once. -/
theorem shiftToTargetExponent_carry (hq : -1074 < q) :
    shiftToTargetExponent Format.binary64 (2 ^ 53) (q - 1) .exact = (⟨2 ^ 52, false, false⟩, q) := by
  have htarget : Format.binary64.targetExponent (totalExponent (2 ^ 53) (q - 1)) = q := by
    rw [targetExponent_eq, totalExponent, Nat.log2_two_pow]
    omega
  have hshift : (q - (q - 1)).toNat = 1 := by omega
  simp only [shiftToTargetExponent, htarget, shiftToExponent, hshift]
  refine Prod.ext ?_ ?_
  · rfl
  · show q - 1 + ((1 : Nat) : Int) = q
    omega

/-- Rounding is done after two shifts, the second one for a mantissa that has become too long. -/
theorem roundWithAccuracy_of_shifts {mantissa : Nat} {exponent e : Int} {accuracy : Accuracy}
    {em : ExtendedMantissa} (s : Sign) (hm : 0 < m)
    (hfirst : shiftToTargetExponent Format.binary64 mantissa exponent accuracy = (em, e))
    (hsecond : shiftToTargetExponent Format.binary64 em.roundedMantissa e .exact =
      (⟨m, false, false⟩, q)) :
    roundWithAccuracy Format.binary64 s mantissa exponent accuracy = .finite s m q hm := by
  have hlast : ∀ second : ExtendedMantissa × Int, second = (⟨m, false, false⟩, q) →
      (if h : second.1.mantissa = 0 then UnpackedFloat.zero s
        else .finite s second.1.mantissa second.2 (Nat.pos_of_ne_zero h)) = .finite s m q hm := by
    rintro _ rfl
    exact dif_neg hm.ne'
  refine hlast (shiftToTargetExponent Format.binary64
    (shiftToTargetExponent Format.binary64 mantissa exponent accuracy).1.roundedMantissa
    (shiftToTargetExponent Format.binary64 mantissa exponent accuracy).2 .exact) ?_
  rw [hfirst]
  exact hsecond

/-- In units of the last place, what lies in the interval of a double is rounded to its mantissa. -/
theorem Represents.rounded_at {em : ExtendedMantissa} (hrep : Represents em (v / 2 ^ q))
    (hc : Canonical m q) (h : (Interval.around m q).Contains q v) : em.roundedMantissa = m := by
  have hunit : (0 : ℚ) < 2 ^ q := by positivity
  obtain ⟨⟨hlow, hhigh⟩, hopen, -⟩ := h.near hc
  refine hrep.rounded ((le_div_iff₀ hunit).mpr hlow) ((div_le_iff₀ hunit).mpr hhigh) ?_
  intro hodd
  obtain ⟨hlow', hhigh'⟩ := hopen hodd
  exact ⟨(lt_div_iff₀ hunit).mpr hlow', (div_lt_iff₀ hunit).mpr hhigh'⟩

/-- Just below a power of two the units are half as large, and the mantissa becomes too long. -/
theorem Represents.rounded_below {em : ExtendedMantissa} (hrep : Represents em (v / 2 ^ (q - 1)))
    (hquarter : (2 ^ 52 - 1 / 4 : ℚ) * 2 ^ q ≤ v) (hbelow : v < 2 ^ 52 * 2 ^ q) :
    em.roundedMantissa = 2 ^ 53 := by
  have hunit : (0 : ℚ) < 2 ^ (q - 1) := by positivity
  have htwice : (2 : ℚ) ^ q = 2 * 2 ^ (q - 1) := by
    rw [zpow_sub₀ (by norm_num)]
    ring
  rw [htwice] at hquarter hbelow
  refine hrep.rounded ?_ ?_ ?_
  · rw [le_div_iff₀ hunit]
    push_cast
    linarith
  · rw [div_le_iff₀ hunit]
    push_cast
    linarith
  · intro hodd
    norm_num at hodd

/-- The first shift of rounding gives the number in units of the exponent that it goes to. -/
theorem shiftToTargetExponent_represents {mantissa : Nat} {exponent target : Int} {accuracy : Accuracy}
    (hv : Represents (.ofMantissaAndAccuracy mantissa accuracy) (v / 2 ^ exponent))
    (htarget : Format.binary64.targetExponent (totalExponent mantissa exponent) = target)
    (hexponent : exponent ≤ target) :
    ∃ em, shiftToTargetExponent Format.binary64 mantissa exponent accuracy = (em, target) ∧
      Represents em (v / 2 ^ target) := by
  have hscale : v / 2 ^ exponent / 2 ^ (target - exponent).toNat = v / 2 ^ target := by
    rw [div_div, ← zpow_natCast, ← zpow_add₀ (by norm_num)]
    congr 2
    omega
  refine ⟨ExtendedMantissa.ofMantissaAndAccuracy mantissa accuracy >>> (target - exponent).toNat,
    ?_, hscale ▸ hv.shiftRight (target - exponent).toNat⟩
  simp only [shiftToTargetExponent, shiftToExponent, htarget]
  refine Prod.ext rfl ?_
  show exponent + ((target - exponent).toNat : Int) = target
  omega

/-- **A number in the interval of a double is rounded to the double**, if it is given with an exponent
that is not too large. -/
theorem roundWithAccuracy_eq {mantissa : Nat} {exponent : Int} {accuracy : Accuracy} (s : Sign)
    (hv : Represents (.ofMantissaAndAccuracy mantissa accuracy) (v / 2 ^ exponent))
    (hexponent : exponent ≤ Format.binary64.targetExponent (totalExponent mantissa exponent))
    (hc : Canonical m q) (h : (Interval.around m q).Contains q v) :
    roundWithAccuracy Format.binary64 s mantissa exponent accuracy =
      .finite s m q hc.positive := by
  obtain ⟨hless, hmore⟩ := target_bounds hv hexponent
  have hleast : -1074 ≤ Format.binary64.targetExponent (totalExponent mantissa exponent) := by
    rw [targetExponent_eq]
    omega
  have hcases := target_cases hc h hless hmore hleast
  obtain ⟨em, hfirst, hrep⟩ := shiftToTargetExponent_represents hv rfl hexponent
  generalize Format.binary64.targetExponent (totalExponent mantissa exponent) = target at *
  refine roundWithAccuracy_of_shifts s hc.positive hfirst ?_
  rcases hcases with rfl | ⟨rfl, rfl, hquarter, hbelow⟩
  · rw [hrep.rounded_at hc h]
    exact shiftToTargetExponent_canonical hc
  · rw [hrep.rounded_below hquarter hbelow]
    exact shiftToTargetExponent_carry (by omega)

end Near

end Number
end FormulaEvolution
