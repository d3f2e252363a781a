/-
# Rounding stays within bounds

A number that is not above a double is not rounded to anything above it (`roundWithAccuracy_le`): what it
is rounded to is a zero or a canonical double that is not farther out (`Inside`).  So sums and products that
are within a double before they are rounded are so after it (`add_inside`, `mul_inside`).

The first shift of rounding leaves a mantissa in units of its last place.  The bound is a whole number of
these units, and a number that is not above a whole number is not rounded to more.
-/
import FormulaEvolution.Proofs.Number.Comparison
import FormulaEvolution.Proofs.Number.Scientific

namespace FormulaEvolution
namespace Number

open Float.Model Float.Model.UnpackedFloat

/-! ## 1. Extended mantissas -/

section Represented

variable {em : ExtendedMantissa} {v : ℚ} {n : Nat}

/-- Rounding a mantissa changes it by one at most, and not at all if nothing is dropped. -/
theorem Represents.rounded_cases (h : Represents em v) :
    em.roundedMantissa = em.mantissa ∨ em.roundedMantissa = em.mantissa + 1 ∧ (em.mantissa : ℚ) < v := by
  obtain ⟨rest, hnonneg, -, -, rfl⟩ := h
  rcases em with ⟨m, roundBit, stickyBit⟩
  cases roundBit with
  | false =>
    left
    cases stickyBit <;> rfl
  | true =>
    have hmore : (m : ℚ) < m + (if true = true then 1 / 2 else 0) + rest := by
      rw [if_pos rfl]
      linarith
    cases stickyBit with
    | false =>
      have hrounded : (ExtendedMantissa.mk m true false).roundedMantissa = m + m % 2 := rfl
      rw [hrounded]
      rcases Nat.mod_two_eq_zero_or_one m with heven | hodd
      · left
        rw [heven, Nat.add_zero]
      · right
        rw [hodd]
        exact ⟨rfl, hmore⟩
    | true => exact .inr ⟨rfl, hmore⟩

/-- A number that is not above a whole number is not rounded to more. -/
theorem Represents.rounded_le (h : Represents em v) (hle : v ≤ n) : em.roundedMantissa ≤ n := by
  obtain ⟨hlow, -⟩ := h.bounds
  rcases h.rounded_cases with hsame | ⟨hnext, hless⟩
  · rw [hsame]
    exact_mod_cast hlow.trans hle
  · rw [hnext]
    have : (em.mantissa : ℚ) < n := hless.trans_le hle
    exact_mod_cast this

/-- A number that is not below a whole number is not rounded to less. -/
theorem Represents.le_rounded (h : Represents em v) (hle : (n : ℚ) ≤ v) : n ≤ em.roundedMantissa := by
  obtain ⟨-, hhigh⟩ := h.bounds
  have hfloor : n ≤ em.mantissa := by
    have : (n : ℚ) < em.mantissa + 1 := hle.trans_lt hhigh
    have : n < em.mantissa + 1 := by exact_mod_cast this
    omega
  rcases h.rounded_cases with hsame | ⟨hnext, -⟩
  · omega
  · omega

end Represented

/-! ## 2. Rounding -/

/-- A zero, or a double with a given sign that is not farther out than a given double. -/
inductive Inside (negative : Bool) (m : Nat) (q : Int) : UnpackedFloat → Prop
  | zero (s : Sign) : Inside negative m q (.zero s)
  | finite {m' : Nat} {q' : Int} (h : Canonical m' q') : place m' q' ≤ place m q →
      Inside negative m q (.finite (signOf negative) m' q' h.positive)

/-- A mantissa that has become zero by rounding makes zero. -/
theorem roundWithAccuracy_of_zero {mantissa : Nat} {exponent e : Int} {accuracy : Accuracy}
    {em : ExtendedMantissa} (s : Sign)
    (hfirst : shiftToTargetExponent Format.binary64 mantissa exponent accuracy = (em, e))
    (hzero : em.roundedMantissa = 0) (he : -1074 ≤ e) :
    roundWithAccuracy Format.binary64 s mantissa exponent accuracy = .zero s := by
  have htarget : (Format.binary64.targetExponent (totalExponent 0 e) - e).toNat = 0 := by
    have hlog : Nat.log2 0 = 0 := by decide
    rw [targetExponent_eq, totalExponent, hlog]
    omega
  have hlast : ∀ second : ExtendedMantissa × Int, second.1.mantissa = 0 →
      (if h : second.1.mantissa = 0 then UnpackedFloat.zero s
        else .finite s second.1.mantissa second.2 (Nat.pos_of_ne_zero h)) = .zero s :=
    fun _ h => dif_pos h
  refine hlast (shiftToTargetExponent Format.binary64
    (shiftToTargetExponent Format.binary64 mantissa exponent accuracy).1.roundedMantissa
    (shiftToTargetExponent Format.binary64 mantissa exponent accuracy).2 .exact) ?_
  rw [hfirst, hzero]
  simp only [shiftToTargetExponent, shiftToExponent, htarget]
  rfl

section Rounding

variable {m : Nat} {q : Int} {v : ℚ}

/-- The first shift of rounding does not go beyond the exponent of a bound. -/
theorem target_le {target : Int} (hc : Canonical m q) (hle : v ≤ m * 2 ^ q)
    (hmore : -1074 < target → (2 : ℚ) ^ (target + 52) ≤ v) : target ≤ q := by
  by_contra hnot
  have hleast := hc.least
  have hunit : (0 : ℚ) < 2 ^ q := by positivity
  have hupper : (m : ℚ) < 2 ^ 53 := by exact_mod_cast hc.upper
  have hlt : (2 : ℚ) ^ (target + 52) < 2 ^ (q + 53) := calc
    (2 : ℚ) ^ (target + 52) ≤ v := hmore (by omega)
    _ ≤ m * 2 ^ q := hle
    _ < 2 ^ 53 * 2 ^ q := mul_lt_mul_of_pos_right hupper hunit
    _ = 2 ^ (q + 53) := by rw [zpow_add₀ (by norm_num), mul_comm]; norm_cast
  have := (zpow_lt_zpow_iff_right₀ (by norm_num : (1 : ℚ) < 2)).mp hlt
  omega

/-- A bound is a whole number of units of a smaller exponent. -/
theorem bound_in_units {target : Int} (htarget : target ≤ q) (hle : v ≤ m * 2 ^ q) :
    v / 2 ^ target ≤ ((m * 2 ^ (q - target).toNat : Nat) : ℚ) := by
  have hunit : (0 : ℚ) < 2 ^ target := by positivity
  have hsplit : (2 : ℚ) ^ q = 2 ^ (q - target).toNat * 2 ^ target := by
    rw [← zpow_natCast, ← zpow_add₀ (by norm_num)]
    congr 1
    omega
  rw [div_le_iff₀ hunit]
  calc v ≤ m * 2 ^ q := hle
    _ = ((m * 2 ^ (q - target).toNat : Nat) : ℚ) * 2 ^ target := by
      rw [hsplit]
      push_cast
      ring

/-- **A number that is not above a double is not rounded to anything above it.** -/
theorem roundWithAccuracy_le {mantissa : Nat} {exponent : Int} {accuracy : Accuracy} (negative : Bool)
    (hv : Represents (.ofMantissaAndAccuracy mantissa accuracy) (v / 2 ^ exponent))
    (hexponent : exponent ≤ Format.binary64.targetExponent (totalExponent mantissa exponent))
    (hc : Canonical m q) (hle : v ≤ m * 2 ^ q) : Inside negative m q
      (roundWithAccuracy Format.binary64 (signOf negative) mantissa exponent accuracy) := by
  obtain ⟨hless, hmore⟩ := target_bounds hv hexponent
  have hleast : -1074 ≤ Format.binary64.targetExponent (totalExponent mantissa exponent) := by
    rw [targetExponent_eq]
    omega
  obtain ⟨em, hfirst, hrep⟩ := shiftToTargetExponent_represents hv rfl hexponent
  generalize Format.binary64.targetExponent (totalExponent mantissa exponent) = target at *
  have hunit : (0 : ℚ) < 2 ^ target := by positivity
  have htarget : target ≤ q := target_le hc hle hmore
  have hceiling : em.roundedMantissa ≤ m * 2 ^ (q - target).toNat :=
    hrep.rounded_le (bound_in_units htarget hle)
  have hlong : em.roundedMantissa ≤ 2 ^ 53 := by
    refine hrep.rounded_le ((div_le_iff₀ hunit).mpr (hless.le.trans_eq ?_))
    rw [zpow_add₀ (by norm_num), mul_comm]
    norm_cast
  have hfloor : -1074 < target → 2 ^ 52 ≤ em.roundedMantissa := by
    intro hnormal
    refine hrep.le_rounded ((le_div_iff₀ hunit).mpr (le_of_eq_of_le ?_ (hmore hnormal)))
    rw [zpow_add₀ (by norm_num), mul_comm]
    norm_cast
  rcases Nat.eq_zero_or_pos em.roundedMantissa with hzero | hpos
  · rw [roundWithAccuracy_of_zero (signOf negative) hfirst hzero hleast]
    exact .zero _
  rcases Nat.lt_or_eq_of_le hlong with hshort | hcarry
  · have hc' : Canonical em.roundedMantissa target := ⟨hpos, hshort, by omega, hleast⟩
    rw [roundWithAccuracy_of_shifts (signOf negative) hc'.positive hfirst
      (shiftToTargetExponent_canonical hc')]
    refine .finite hc' ((place_le_iff hc' hc).mpr ?_)
    rcases Int.lt_or_eq_of_le htarget with hlt | rfl
    · exact .inl hlt
    · rw [Int.sub_self, Int.toNat_zero, Nat.pow_zero, Nat.mul_one] at hceiling
      exact .inr ⟨rfl, hceiling⟩
  · -- The mantissa has become too long, so that the bound has a larger exponent.
    have hc' : Canonical (2 ^ 52) (target + 1) := ⟨by norm_num, by norm_num, .inl le_rfl, by omega⟩
    have hsecond := shiftToTargetExponent_carry (q := target + 1) (by omega)
    rw [Int.add_sub_cancel, ← hcarry] at hsecond
    rw [roundWithAccuracy_of_shifts (signOf negative) hc'.positive hfirst hsecond]
    refine .finite hc' ((place_le_iff hc' hc).mpr ?_)
    rw [hcarry] at hceiling
    have hupper := hc.upper
    have hne : q ≠ target := by
      rintro rfl
      rw [Int.sub_self, Int.toNat_zero, Nat.pow_zero, Nat.mul_one] at hceiling
      omega
    by_cases hnext : q = target + 1
    · have hone : (q - target).toNat = 1 := by omega
      rw [hone] at hceiling
      exact .inr ⟨hnext.symm, by omega⟩
    · exact .inl (by omega)

theorem le_log2_shiftLeft {n : Nat} (h : 0 < n) (k : Nat) : n.log2 + k ≤ (n <<< k).log2 := by
  rw [Nat.shiftLeft_eq]
  refine (Nat.le_log2 (Nat.mul_pos h (Nat.two_pow_pos k)).ne').mpr ?_
  rw [Nat.pow_add]
  exact Nat.mul_le_mul_right _ (Nat.log2_self_le h.ne')

/-- Rounding from any exponent is rounding from one that is small enough, of the same number. -/
theorem round_eq {mantissa : Nat} {exponent : Int} (s : Sign) (hm : 0 < mantissa)
    (hv : v = mantissa * 2 ^ exponent) : ∃ (mantissa' : Nat) (exponent' : Int),
      UnpackedFloat.round Format.binary64 s mantissa exponent =
        roundWithAccuracy Format.binary64 s mantissa' exponent' .exact ∧
      Represents (.ofMantissaAndAccuracy mantissa' .exact) (v / 2 ^ exponent') ∧
      exponent' ≤ Format.binary64.targetExponent (totalExponent mantissa' exponent') := by
  generalize hk : (exponent - Format.binary64.targetExponent (totalExponent mantissa exponent)).toNat = k
  refine ⟨mantissa <<< k, exponent - k, ?_, ?_, ?_⟩
  · rw [← hk]
    rfl
  · have hvalue : v / 2 ^ (exponent - k) = ((mantissa <<< k : Nat) : ℚ) := by
      rw [hv, Nat.shiftLeft_eq, zpow_sub₀ (by norm_num), zpow_natCast]
      push_cast
      field_simp
    rw [hvalue]
    exact represents_exact _
  · have hlog := le_log2_shiftLeft hm k
    rw [targetExponent_eq, totalExponent] at hk ⊢
    omega

/-- A number that is a double is rounded to itself. -/
theorem round_exact {mantissa : Nat} {exponent : Int} (s : Sign) (hm : 0 < mantissa)
    (hc : Canonical m q) (hv : (m : ℚ) * 2 ^ q = mantissa * 2 ^ exponent) :
    UnpackedFloat.round Format.binary64 s mantissa exponent = .finite s m q hc.positive := by
  obtain ⟨mantissa', exponent', hround, hrep, hexponent⟩ := round_eq s hm hv
  rw [hround]
  exact roundWithAccuracy_eq s hrep hexponent hc (contains_self hc.positive)

/-- A whole number of units, with a sign, is put into form by rounding its size. -/
theorem normalize_eq_round {mantissa : Int} (exponent : Int) (h : mantissa ≠ 0) :
    UnpackedFloat.normalize Format.binary64 mantissa exponent .positive =
      UnpackedFloat.round Format.binary64 (signOf (decide (mantissa < 0))) mantissa.natAbs exponent := by
  rcases Int.lt_or_gt_of_ne h with hneg | hpos
  · have hsize : (-mantissa).toNat = mantissa.natAbs := by omega
    simp only [UnpackedFloat.normalize, Int.compare_eq_lt.mpr hneg, decide_eq_true hneg, hsize]
    rfl
  · have hsize : mantissa.toNat = mantissa.natAbs := by omega
    simp only [UnpackedFloat.normalize, Int.compare_eq_gt.mpr hpos, decide_eq_false hpos.not_gt, hsize]
    rfl

end Rounding

/-! ## 3. Sums and products -/

/-- A number has been rounded: the outcome has its sign unless it is a zero, is within every double that the
number is within, and is the double in whose interval the number lies. -/
structure IsRounding (v : ℚ) (u : UnpackedFloat) : Prop where
  inside {m : Nat} {q : Int} : Canonical m q → |v| ≤ m * 2 ^ q → Inside (decide (v < 0)) m q u
  eq {m : Nat} {q : Int} (h : Canonical m q) : (Interval.around m q).Contains q |v| →
    u = .finite (signOf (decide (v < 0))) m q h.positive

/-- What a sign, a mantissa and an exponent stand for. -/
def signedValue (negative : Bool) (m : Nat) (q : Int) : ℚ :=
  if negative then -(m * 2 ^ q) else m * 2 ^ q

section Signed

variable {m m₁ m₂ : Nat} {q e₁ e₂ : Int} {v : ℚ}

theorem abs_signedValue (negative : Bool) (m : Nat) (q : Int) : |signedValue negative m q| = m * 2 ^ q := by
  have hnonneg : (0 : ℚ) ≤ m * 2 ^ q := by positivity
  cases negative with
  | true => exact (abs_neg _).trans (abs_of_nonneg hnonneg)
  | false => exact abs_of_nonneg hnonneg

/-- The sign of what is not zero. -/
theorem signedValue_lt_zero_iff (negative : Bool) (hm : 0 < m) (q : Int) :
    signedValue negative m q < 0 ↔ negative = true := by
  have hm' : (0 : ℚ) < m := by exact_mod_cast hm
  have hpos : (0 : ℚ) < m * 2 ^ q := by positivity
  cases negative with
  | true => exact iff_of_true (neg_neg_of_pos hpos) rfl
  | false => exact iff_of_false hpos.le.not_gt Bool.false_ne_true

/-- The signs of two numbers are multiplied as the numbers are. -/
theorem signOf_mul (negative₁ negative₂ : Bool) (h₁ : 0 < m₁) (h₂ : 0 < m₂) :
    signOf negative₁ * signOf negative₂ =
      signOf (decide (signedValue negative₁ m₁ e₁ * signedValue negative₂ m₂ e₂ < 0)) := by
  have h₁' : (0 : ℚ) < m₁ := by exact_mod_cast h₁
  have h₂' : (0 : ℚ) < m₂ := by exact_mod_cast h₂
  have hpos : (0 : ℚ) < (m₁ * 2 ^ e₁) * (m₂ * 2 ^ e₂) := by positivity
  have hneg : -((m₁ * 2 ^ e₁) * (m₂ * 2 ^ e₂) : ℚ) < 0 := neg_neg_of_pos hpos
  cases negative₁ with
  | true =>
    cases negative₂ with
    | true => simp only [signedValue, if_true, neg_mul_neg, decide_eq_false hpos.not_gt]; rfl
    | false =>
      simp only [signedValue, if_true, Bool.false_eq_true, if_false, neg_mul, decide_eq_true hneg]
      rfl
  | false =>
    cases negative₂ with
    | true =>
      simp only [signedValue, if_true, Bool.false_eq_true, if_false, mul_neg, decide_eq_true hneg]
      rfl
    | false =>
      simp only [signedValue, Bool.false_eq_true, if_false, decide_eq_false hpos.not_gt]
      rfl

/-- **Rounding rounds**, if the exponent is small enough. -/
theorem isRounding_roundWithAccuracy {mantissa : Nat} {exponent : Int} {accuracy : Accuracy} {s : Sign}
    (hs : s = signOf (decide (v < 0)))
    (hv : Represents (.ofMantissaAndAccuracy mantissa accuracy) (|v| / 2 ^ exponent))
    (hexponent : exponent ≤ Format.binary64.targetExponent (totalExponent mantissa exponent)) :
    IsRounding v (roundWithAccuracy Format.binary64 s mantissa exponent accuracy) := by
  subst hs
  exact ⟨roundWithAccuracy_le _ hv hexponent, roundWithAccuracy_eq _ hv hexponent⟩

/-- Zero is rounded to a zero. -/
theorem isRounding_zero (s : Sign) : IsRounding 0 (.zero s) := by
  constructor
  · intro m q _ _
    exact .zero s
  · intro m q h hcontains
    obtain ⟨⟨hlow, -⟩, -⟩ := hcontains.near h
    have hm : (1 : ℚ) ≤ m := by exact_mod_cast h.positive
    have hpos : (0 : ℚ) < (m - 1 / 2) * 2 ^ q := mul_pos (by linarith) (by positivity)
    rw [abs_zero] at hlow
    exact absurd hlow hpos.not_ge

/-- **A whole number of units, with a sign, is rounded by putting it into form.** -/
theorem isRounding_normalize (mantissa exponent : Int) :
    IsRounding (mantissa * 2 ^ exponent)
      (UnpackedFloat.normalize Format.binary64 mantissa exponent .positive) := by
  rcases eq_or_ne mantissa 0 with rfl | hne
  · rw [Int.cast_zero, zero_mul]
    exact isRounding_zero .positive
  have hunit : (0 : ℚ) < 2 ^ exponent := by positivity
  have habs : |(mantissa * 2 ^ exponent : ℚ)| = mantissa.natAbs * 2 ^ exponent := by
    rw [abs_mul, abs_of_pos hunit, Nat.cast_natAbs, Int.cast_abs]
  have hsign : (mantissa * 2 ^ exponent : ℚ) < 0 ↔ mantissa < 0 := by
    rw [← zero_mul ((2 : ℚ) ^ exponent), mul_lt_mul_iff_left₀ hunit, Int.cast_lt_zero]
  rw [normalize_eq_round exponent hne]
  obtain ⟨mantissa', exponent', hround, hrep, hexponent⟩ :=
    round_eq (signOf (decide (mantissa < 0))) (Int.natAbs_pos.mpr hne) habs
  rw [hround]
  exact isRounding_roundWithAccuracy (by simp only [hsign]) hrep hexponent

/-- **The sum of two doubles is rounded.** -/
theorem isRounding_add (negative₁ negative₂ : Bool) (h₁ : 0 < m₁) (h₂ : 0 < m₂) :
    IsRounding (signedValue negative₁ m₁ e₁ + signedValue negative₂ m₂ e₂)
      (UnpackedFloat.add Format.binary64 (.finite (signOf negative₁) m₁ e₁ h₁)
        (.finite (signOf negative₂) m₂ e₂ h₂)) := by
  have hshifted : ∀ negative (n : Nat) (e : Int), min e₁ e₂ ≤ e →
      (((signOf negative).apply (n <<< (e - min e₁ e₂).toNat : Nat) : Int) : ℚ) * 2 ^ min e₁ e₂ =
        signedValue negative n e := by
    intro negative n e hmin
    have hpow : (2 : ℚ) ^ e = 2 ^ (e - min e₁ e₂).toNat * 2 ^ min e₁ e₂ := by
      rw [← zpow_natCast, ← zpow_add₀ (by norm_num)]
      congr 1
      omega
    cases negative with
    | true =>
      simp only [signOf, if_true, Sign.apply, signedValue, Nat.shiftLeft_eq, hpow]
      push_cast
      ring
    | false =>
      simp only [signOf, Bool.false_eq_true, if_false, Sign.apply, signedValue, Nat.shiftLeft_eq, hpow]
      push_cast
      ring
  rw [← hshifted negative₁ m₁ e₁ (Int.min_le_left _ _),
    ← hshifted negative₂ m₂ e₂ (Int.min_le_right _ _), ← add_mul, ← Int.cast_add]
  exact isRounding_normalize _ _

/-- The exponent of a product is small enough to round from: a factor has all its bits, or both have the
least exponent. -/
theorem product_exponent (hc₁ : Canonical m₁ e₁) (hc₂ : Canonical m₂ e₂) :
    e₁ + e₂ ≤ Format.binary64.targetExponent (totalExponent (m₁ * m₂) (e₁ + e₂)) := by
  have hpos₁ := hc₁.positive
  have hpos₂ := hc₂.positive
  have hlong : 2 ^ 52 ≤ m₁ * m₂ ∨ e₁ + e₂ ≤ -1074 := by
    rcases hc₁.lower with hnormal | hleast
    · exact .inl (hnormal.trans (Nat.le_mul_of_pos_right _ hpos₂))
    · rcases hc₂.lower with hnormal | hleast'
      · exact .inl (hnormal.trans (Nat.le_mul_of_pos_left _ hpos₁))
      · exact .inr (by omega)
  rw [targetExponent_eq, totalExponent]
  rcases hlong with hbits | hsmall
  · have hlog : 52 ≤ (m₁ * m₂).log2 := (Nat.le_log2 (Nat.mul_pos hpos₁ hpos₂).ne').mpr hbits
    omega
  · omega

/-- **The product of two doubles is rounded.** -/
theorem isRounding_mul (negative₁ negative₂ : Bool) (hc₁ : Canonical m₁ e₁) (hc₂ : Canonical m₂ e₂) :
    IsRounding (signedValue negative₁ m₁ e₁ * signedValue negative₂ m₂ e₂)
      (UnpackedFloat.mul Format.binary64 (.finite (signOf negative₁) m₁ e₁ hc₁.positive)
        (.finite (signOf negative₂) m₂ e₂ hc₂.positive)) := by
  refine isRounding_roundWithAccuracy ?_ ?_ (product_exponent hc₁ hc₂)
  · exact signOf_mul negative₁ negative₂ hc₁.positive hc₂.positive
  · have hv : |signedValue negative₁ m₁ e₁ * signedValue negative₂ m₂ e₂| / 2 ^ (e₁ + e₂) =
        ((m₁ * m₂ : Nat) : ℚ) := by
      rw [abs_mul, abs_signedValue, abs_signedValue, zpow_add₀ (by norm_num)]
      push_cast
      field_simp
    rw [hv]
    exact represents_exact _

/-- **The quotient of two doubles is rounded.** -/
theorem isRounding_div (negative₁ negative₂ : Bool) (h₁ : 0 < m₁) (h₂ : 0 < m₂) :
    IsRounding (signedValue negative₁ m₁ e₁ / signedValue negative₂ m₂ e₂)
      (UnpackedFloat.div Format.binary64 (.finite (signOf negative₁) m₁ e₁ h₁)
        (.finite (signOf negative₂) m₂ e₂ h₂)) := by
  obtain ⟨hrep, hexponent⟩ := divCore_represents e₁ e₂ h₁ h₂
  rw [← abs_signedValue negative₁ m₁, ← abs_signedValue negative₂ m₂, ← abs_div] at hrep
  refine isRounding_roundWithAccuracy ?_ hrep hexponent
  rw [decide_eq_decide.mpr (div_neg_iff.trans mul_neg_iff.symm), ← signOf_mul negative₁ negative₂ h₁ h₂]
  cases negative₁ <;> cases negative₂ <;> rfl

/-- **A sum that is within a double is rounded to something within it.** -/
theorem add_inside (negative₁ negative₂ : Bool) (h₁ : 0 < m₁) (h₂ : 0 < m₂) (hc : Canonical m q)
    (hle : |signedValue negative₁ m₁ e₁ + signedValue negative₂ m₂ e₂| ≤ m * 2 ^ q) :
    ∃ negative, Inside negative m q (UnpackedFloat.add Format.binary64
      (.finite (signOf negative₁) m₁ e₁ h₁) (.finite (signOf negative₂) m₂ e₂ h₂)) :=
  ⟨_, (isRounding_add negative₁ negative₂ h₁ h₂).inside hc hle⟩

/-- **A product that is within a double is rounded to something within it.** -/
theorem mul_inside (hc₁ : Canonical m₁ e₁) (hc₂ : Canonical m₂ e₂) (hc : Canonical m q)
    (hle : (m₁ * 2 ^ e₁) * (m₂ * 2 ^ e₂) ≤ (m * 2 ^ q : ℚ)) :
    Inside false m q (UnpackedFloat.mul Format.binary64 (.finite .positive m₁ e₁ hc₁.positive)
      (.finite .positive m₂ e₂ hc₂.positive)) := by
  have hnonneg : (0 : ℚ) ≤ (m₁ * 2 ^ e₁) * (m₂ * 2 ^ e₂) := by positivity
  have hsign : decide (signedValue false m₁ e₁ * signedValue false m₂ e₂ < 0) = false :=
    decide_eq_false hnonneg.not_gt
  have hinside := (isRounding_mul false false hc₁ hc₂).inside hc ((abs_of_nonneg hnonneg).trans_le hle)
  rwa [hsign] at hinside

end Signed

/-! ## 4. Doubles -/

section Doubles

variable {negative : Bool} {m m' : Nat} {q q' : Int} {u : UnpackedFloat}

/-- What is not farther out has no larger exponent. -/
theorem Canonical.exponent_le (h : Canonical m' q') (hc : Canonical m q)
    (hplace : place m' q' ≤ place m q) : q' ≤ q := by
  rcases (place_le_iff h hc).mp hplace with hlt | ⟨rfl, -⟩
  · exact hlt.le
  · exact le_rfl

/-- What is within a double is unpacked as it is packed. -/
theorem Inside.unpack_pack (h : Inside negative m q u) (hc : Canonical m q) (hq : q ≤ 971) :
    (Float.ofModel (.pack u)).toModel.unpack = u := by
  cases h with
  | zero s => cases s <;> rfl
  | finite h hplace =>
    exact Number.unpack_pack (signOf negative) h ((h.exponent_le hc hplace).trans hq)

/-- What is within a double lies no farther out, on the side of its sign. -/
theorem Inside.lies (h : Inside negative m q u) (hc : Canonical m q) (hq : q ≤ 971) :
    ∃ p, Lies u (signedPlace negative p) ∧ 0 ≤ p ∧ p ≤ place m q := by
  cases h with
  | zero s =>
    have hzero : signedPlace negative 0 = 0 := by cases negative <;> rfl
    refine ⟨0, ?_, le_rfl, (hc.place_bounds hq).1.le⟩
    rw [hzero]
    exact .zero s
  | finite h hplace =>
    have hq' := (h.exponent_le hc hplace).trans hq
    exact ⟨_, .finite negative h hq', (h.place_bounds hq').1.le, hplace⟩

end Doubles

end Number
end FormulaEvolution
