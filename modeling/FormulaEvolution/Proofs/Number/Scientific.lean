/-
# Decimals read as doubles

A whole number times a power of ten that lies in the interval of a double is read as that double
(`ofScaled_eq`), on the fast path for few digits and small exponents as on the general one.
-/
import FormulaEvolution.Number.Reading
import FormulaEvolution.Proofs.Number.Packing

namespace FormulaEvolution
namespace Number

open Float.Model Float.Model.UnpackedFloat

section Operations

variable {m : Nat} {q : Int} {v : ℚ}

/-! ## 1. Quotients and products -/

/-- A mantissa of so many bits. -/
theorem lt_two_zpow_log2 (n : Nat) : (n : ℚ) + 1 ≤ 2 ^ ((n.log2 : Int) + 1) := by
  have := Nat.lt_log2_self (n := n)
  exact_mod_cast this

theorem two_zpow_log2_le {n : Nat} (h : 0 < n) : (2 : ℚ) ^ (n.log2 : Int) ≤ n := by
  have := Nat.log2_self_le h.ne'
  exact_mod_cast this

/-- A quotient in units of a power of two: the numerator is shifted, and divided with a rest. -/
theorem quotient_eq (m₁ : Nat) {m₂ shift : Nat} {e₁ e₂ target : Int} (h₂ : 0 < m₂)
    (hshift : e₁ - e₂ - target = shift) :
    (m₁ * 2 ^ e₁) / (m₂ * 2 ^ e₂) / 2 ^ target =
      ((m₁ <<< shift / m₂ : Nat) : ℚ) + ((m₁ <<< shift % m₂ : Nat) : ℚ) / m₂ := by
  have hm₂ : (0 : ℚ) < m₂ := by exact_mod_cast h₂
  have hwhole : ((m₁ <<< shift : Nat) : ℚ) =
      m₂ * ((m₁ <<< shift / m₂ : Nat) : ℚ) + ((m₁ <<< shift % m₂ : Nat) : ℚ) := by
    exact_mod_cast (Nat.div_add_mod (m₁ <<< shift) m₂).symm
  have hpow : (2 : ℚ) ^ e₁ = 2 ^ shift * 2 ^ e₂ * 2 ^ target := by
    rw [← zpow_natCast, ← zpow_add₀ (by norm_num), ← zpow_add₀ (by norm_num)]
    congr 1
    omega
  have hscaled : (m₁ * 2 ^ e₁) / (m₂ * 2 ^ e₂) / 2 ^ target = ((m₁ <<< shift : Nat) : ℚ) / m₂ := by
    rw [Nat.shiftLeft_eq, hpow]
    push_cast
    field_simp
  rw [hscaled, hwhole]
  field_simp

/-- A quotient has as many bits as the lengths of its terms say, or one more. -/
theorem lt_quotient {m₁ m₂ : Nat} (e₁ e₂ : Int) (h₁ : 0 < m₁) (h₂ : 0 < m₂) :
    (2 : ℚ) ^ ((m₁.log2 : Int) + e₁ - (m₂.log2 + 1 + e₂)) < (m₁ * 2 ^ e₁) / (m₂ * 2 ^ e₂) := by
  have hm₂ : (0 : ℚ) < m₂ := by exact_mod_cast h₂
  have hnum : (2 : ℚ) ^ (m₁.log2 : Int) * 2 ^ e₁ ≤ m₁ * 2 ^ e₁ :=
    mul_le_mul_of_nonneg_right (two_zpow_log2_le h₁) (by positivity)
  have hden : (m₂ : ℚ) * 2 ^ e₂ < 2 ^ ((m₂.log2 : Int) + 1) * 2 ^ e₂ :=
    mul_lt_mul_of_pos_right (by linarith [lt_two_zpow_log2 m₂]) (by positivity)
  rw [zpow_sub₀ (by norm_num), zpow_add₀ (by norm_num), zpow_add₀ (by norm_num) _ e₂]
  exact div_lt_div₀' hnum hden (by positivity) (by positivity)

/-- The core of a division gives the whole part of the quotient and says how the rest compares with a
half; its exponent is small enough to round from. -/
theorem divCore_represents {m₁ m₂ : Nat} (e₁ e₂ : Int) (h₁ : 0 < m₁) (h₂ : 0 < m₂) :
    Represents
      (.ofMantissaAndAccuracy (divCore Format.binary64 m₁ e₁ m₂ e₂).1
        (divCore Format.binary64 m₁ e₁ m₂ e₂).2.2)
      ((m₁ * 2 ^ e₁) / (m₂ * 2 ^ e₂) / 2 ^ (divCore Format.binary64 m₁ e₁ m₂ e₂).2.1) ∧
    (divCore Format.binary64 m₁ e₁ m₂ e₂).2.1 ≤ Format.binary64.targetExponent
      (totalExponent (divCore Format.binary64 m₁ e₁ m₂ e₂).1
        (divCore Format.binary64 m₁ e₁ m₂ e₂).2.1) := by
  simp only [divCore]
  generalize hfirst :
    Format.binary64.targetExponent (totalExponent m₁ e₁ - totalExponent m₂ e₂) = first
  generalize htarget : min (e₁ - e₂) first = target
  generalize hshift : (e₁ - e₂ - target).toNat = shift
  have hquotient := quotient_eq m₁ h₂ (show e₁ - e₂ - target = shift by omega)
  constructor
  · rw [hquotient]
    exact represents_fraction _ (Nat.mod_lt _ h₂)
  · -- The quotient has at least as many bits as the difference of the exponents says.
    have hunit : (0 : ℚ) < 2 ^ target := by positivity
    have hrest : ((m₁ <<< shift % m₂ : Nat) : ℚ) / m₂ < 1 := by
      rw [div_lt_one (by exact_mod_cast h₂)]
      exact_mod_cast Nat.mod_lt _ h₂
    have hupper : (m₁ * 2 ^ e₁) / (m₂ * 2 ^ e₂) <
        (2 : ℚ) ^ (((m₁ <<< shift / m₂).log2 : Int) + 1 + target) := by
      rw [zpow_add₀ (by norm_num), ← div_lt_iff₀ hunit, hquotient]
      have := lt_two_zpow_log2 (m₁ <<< shift / m₂)
      linarith
    have hbits := (zpow_lt_zpow_iff_right₀ (by norm_num : (1 : ℚ) < 2)).mp
      ((lt_quotient e₁ e₂ h₁ h₂).trans hupper)
    rw [targetExponent_eq, totalExponent] at hfirst ⊢
    rw [totalExponent] at hfirst
    omega

/-- **A quotient in the interval of a double is the double.** -/
theorem div_eq {m₁ m₂ : Nat} {e₁ e₂ : Int} (h₁ : 0 < m₁) (h₂ : 0 < m₂) (hc : Canonical m q)
    (h : (Interval.around m q).Contains q ((m₁ * 2 ^ e₁) / (m₂ * 2 ^ e₂))) :
    UnpackedFloat.div Format.binary64 (.finite .positive m₁ e₁ h₁) (.finite .positive m₂ e₂ h₂) =
      .finite .positive m q hc.positive := by
  obtain ⟨hrep, hexponent⟩ := divCore_represents e₁ e₂ h₁ h₂
  exact roundWithAccuracy_eq .positive hrep hexponent hc h

/-- **A product in the interval of a double is the double**, if it has enough bits to round. -/
theorem mul_eq {m₁ m₂ : Nat} {e₁ e₂ : Int} (h₁ : 0 < m₁) (h₂ : 0 < m₂)
    (hbits : 52 ≤ (m₁ * m₂).log2) (hc : Canonical m q)
    (h : (Interval.around m q).Contains q ((m₁ * 2 ^ e₁) * (m₂ * 2 ^ e₂))) :
    UnpackedFloat.mul Format.binary64 (.finite .positive m₁ e₁ h₁) (.finite .positive m₂ e₂ h₂) =
      .finite .positive m q hc.positive := by
  refine roundWithAccuracy_eq .positive (v := (m₁ * 2 ^ e₁) * (m₂ * 2 ^ e₂)) ?_ ?_ hc h
  · have hv : ((m₁ : ℚ) * 2 ^ e₁) * (m₂ * 2 ^ e₂) / 2 ^ (e₁ + e₂) = ((m₁ * m₂ : Nat) : ℚ) := by
      rw [zpow_add₀ (by norm_num)]
      push_cast
      field_simp
    rw [hv]
    exact represents_exact _
  · rw [targetExponent_eq, totalExponent]
    omega

end Operations

/-! ## 2. Whole numbers -/

/-- A whole number of at most 53 bits, with as many zeros as it takes to have 53. -/
theorem canonical_shiftLeft {n : Nat} (hpos : 0 < n) (hlt : n < 2 ^ 53) :
    Canonical (n <<< (52 - n.log2)) (n.log2 - 52) ∧ 2 ^ 52 ≤ n <<< (52 - n.log2) ∧
      ((n <<< (52 - n.log2) : Nat) : ℚ) * 2 ^ ((n.log2 : Int) - 52) = n := by
  have hlog : n.log2 < 53 := (Nat.log2_lt hpos.ne').mpr hlt
  have hlow : 2 ^ 52 ≤ n <<< (52 - n.log2) := calc
    2 ^ 52 = 2 ^ n.log2 * 2 ^ (52 - n.log2) := by rw [← pow_add]; congr 1; omega
    _ ≤ n * 2 ^ (52 - n.log2) := Nat.mul_le_mul_right _ (Nat.log2_self_le hpos.ne')
    _ = n <<< (52 - n.log2) := (Nat.shiftLeft_eq _ _).symm
  have hhigh : n <<< (52 - n.log2) < 2 ^ 53 := calc
    n <<< (52 - n.log2) = n * 2 ^ (52 - n.log2) := Nat.shiftLeft_eq _ _
    _ < 2 ^ (n.log2 + 1) * 2 ^ (52 - n.log2) :=
      Nat.mul_lt_mul_of_pos_right Nat.lt_log2_self (by positivity)
    _ = 2 ^ 53 := by rw [← pow_add]; congr 1; omega
  refine ⟨⟨Nat.lt_of_lt_of_le (by positivity) hlow, hhigh, .inl hlow, by omega⟩, hlow, ?_⟩
  have hexponent : ((n.log2 : Int) - 52) = -((52 - n.log2 : Nat) : Int) := by omega
  rw [Nat.shiftLeft_eq, hexponent, zpow_neg, zpow_natCast]
  push_cast
  field_simp

/-- **A whole number of at most 53 bits is a double.** -/
theorem unpack_toFloat {n : Nat} (hpos : 0 < n) (hlt : n < 2 ^ 53) :
    n.toUInt64.toFloat.toModel.unpack =
      .finite .positive (n <<< (52 - n.log2)) (n.log2 - 52)
        (canonical_shiftLeft hpos hlt).1.positive := by
  obtain ⟨hc, -, hvalue⟩ := canonical_shiftLeft hpos hlt
  have hlog : n.log2 < 53 := (Nat.log2_lt hpos.ne').mpr hlt
  have htarget : Format.binary64.targetExponent (totalExponent n 0) = (n.log2 : Int) - 52 := by
    rw [targetExponent_eq, totalExponent]
    omega
  have hround : UnpackedFloat.round Format.binary64 .positive n 0 =
      .finite .positive (n <<< (52 - n.log2)) (n.log2 - 52) hc.positive := by
    have hshift : (0 - ((n.log2 : Int) - 52)).toNat = 52 - n.log2 := by omega
    have hexponent : (0 : Int) - ((52 - n.log2 : Nat) : Int) = n.log2 - 52 := by omega
    have hshifted : UnpackedFloat.round Format.binary64 .positive n 0 =
        roundWithAccuracy Format.binary64 .positive
          (n <<< (0 - Format.binary64.targetExponent (totalExponent n 0)).toNat)
          (0 - ((0 - Format.binary64.targetExponent (totalExponent n 0)).toNat : Nat)) .exact := rfl
    rw [hshifted, htarget, hshift, hexponent]
    refine roundWithAccuracy_eq .positive ?_ ?_ hc (contains_self hc.positive)
    · rw [mul_div_assoc, div_self (by positivity), mul_one]
      exact represents_exact _
    · rw [hc.target]
  have htoNat : n.toUInt64.toNat = n := UInt64.toNat_ofNat_of_lt' (by
    rw [UInt64.size]
    omega)
  have hofInt : UnpackedFloat.ofInt Format.binary64 (n : Int) =
      UnpackedFloat.round Format.binary64 .positive n 0 := by
    have hcompare : compare (n : Int) 0 = .gt := Int.compare_eq_gt.mpr (by omega)
    simp only [UnpackedFloat.ofInt, UnpackedFloat.normalize, hcompare, Int.toNat_natCast]
  have hmodel : n.toUInt64.toFloat.toModel.unpack =
      Float.Model.UnpackedFloat.unpack Format.binary64 (Float.Model.UnpackedFloat.pack
        Format.binary64 (UnpackedFloat.ofInt Format.binary64 (n.toUInt64.toNat : Int))) := rfl
  rw [hmodel, htoNat, hofInt, hround]
  exact unpack_pack .positive hc (by omega)

/-! ## 3. Powers of ten -/

/-- The powers of ten that are doubles. -/
def powerOfTen (e : Fin 23) : Float := getElem Float.exactlyRepresentablePowersOfTen e.val (by
  simp [Float.exactlyRepresentablePowersOfTen])

/-- Whether an unpacked double is a whole number; the comparison is one of whole numbers. -/
def isWhole (n : Nat) : UnpackedFloat → Bool
  | .finite .positive m q _ => m * 2 ^ q.toNat = n * 2 ^ (-q).toNat
  | _ => false

theorem finite_of_isWhole {n : Nat} {u : UnpackedFloat} (h : isWhole n u = true) :
    ∃ (m : Nat) (q : Int) (hm : 0 < m), u = .finite .positive m q hm ∧ (m : ℚ) * 2 ^ q = n := by
  cases u with
  | finite s m q hm =>
    cases s with
    | negative => cases h
    | positive =>
      refine ⟨m, q, hm, rfl, ?_⟩
      have hvalue : (m : ℚ) * 2 ^ q.toNat = n * 2 ^ (-q).toNat := by
        exact_mod_cast of_decide_eq_true h
      have hq : q = (q.toNat : Int) - ((-q).toNat : Int) := by omega
      rw [hq, zpow_sub₀ (by norm_num), zpow_natCast, zpow_natCast, ← mul_div_assoc, hvalue]
      field_simp
  | zero s => cases h
  | infinity s => cases h
  | notANumber => cases h

theorem unpack_powerOfTen (e : Fin 23) : ∃ (m : Nat) (q : Int) (h : 0 < m),
    (powerOfTen e).toModel.unpack = .finite .positive m q h ∧ (m : ℚ) * 2 ^ q = 10 ^ e.val := by
  have hall : ∀ e : Fin 23, isWhole (10 ^ e.val) (powerOfTen e).toModel.unpack = true := by
    decide +kernel
  obtain ⟨m, q, h, hunpack, hvalue⟩ := finite_of_isWhole (hall e)
  exact ⟨m, q, h, hunpack, by rw [hvalue, Nat.cast_pow]; rfl⟩

/-! ## 4. Decimals -/

section Decimals

variable {m n : Nat} {q : Int}

/-- What lies in the interval of a double lies between the least and the greatest double. -/
theorem contains_range {v : ℚ} (hc : Canonical m q) (hq : q ≤ 971)
    (h : (Interval.around m q).Contains q v) : (2 : ℚ) ^ (-1075 : Int) ≤ v ∧ v < 2 ^ (1024 : Int) := by
  obtain ⟨⟨hlow, hhigh⟩, -⟩ := h.near hc
  have hunit : (0 : ℚ) < 2 ^ q := by positivity
  have hm : (1 : ℚ) ≤ m := by exact_mod_cast hc.positive
  have hm' : (m : ℚ) + 1 ≤ 2 ^ 53 := by exact_mod_cast hc.upper
  have hleast := hc.least
  constructor
  · calc (2 : ℚ) ^ (-1075 : Int) ≤ 2 ^ (q - 1) := zpow_le_zpow_right₀ (by norm_num) (by omega)
      _ = 1 / 2 * 2 ^ q := by rw [zpow_sub₀ (by norm_num)]; ring
      _ ≤ (m - 1 / 2) * 2 ^ q := mul_le_mul_of_nonneg_right (by linarith) hunit.le
      _ ≤ v := hlow
  · calc v ≤ (m + 1 / 2) * 2 ^ q := hhigh
      _ < 2 ^ 53 * 2 ^ q := mul_lt_mul_of_pos_right (by linarith) hunit
      _ = 2 ^ (53 + q) := by rw [zpow_add₀ (by norm_num)]; norm_cast
      _ ≤ 2 ^ (1024 : Int) := zpow_le_zpow_right₀ (by norm_num) (by omega)

/-- A quotient with a power of ten that has so many zeros is below all doubles. -/
theorem quotient_lt {e : Int} (he : e ≤ 0) (hsmall : e < -1076 - n.log2) :
    (n : ℚ) * 10 ^ e < 2 ^ (-1075 : Int) := by
  have hn' : (n : ℚ) < 2 ^ ((n.log2 : Int) + 1) := by linarith [lt_two_zpow_log2 n]
  have hlow : (2 : ℚ) ^ (-e) ≤ 10 ^ (-e) :=
    zpow_le_zpow_left₀ (by omega) (by norm_num) (by norm_num)
  have hpow : (0 : ℚ) < 10 ^ e := by positivity
  calc (n : ℚ) * 10 ^ e < 2 ^ ((n.log2 : Int) + 1) * 10 ^ e := mul_lt_mul_of_pos_right hn' hpow
    _ ≤ 2 ^ (-1075 - e : Int) * 10 ^ e :=
      mul_le_mul_of_nonneg_right (zpow_le_zpow_right₀ (by norm_num) (by omega)) hpow.le
    _ = 2 ^ (-1075 : Int) * (2 ^ (-e) * 10 ^ e) := by
      rw [sub_eq_add_neg, zpow_add₀ (by norm_num), mul_assoc]
    _ ≤ 2 ^ (-1075 : Int) * (10 ^ (-e) * 10 ^ e) := by gcongr
    _ = 2 ^ (-1075 : Int) := by
      rw [← zpow_add₀ (by norm_num), neg_add_cancel, zpow_zero, mul_one]

/-- The general way to read a decimal that has no more than its digits before the point: by the
quotient with a power of ten. -/
theorem modelOfScientific_eq {e : Int} (hn : 0 < n) (he : e ≤ 0) (hc : Canonical m q) (hq : q ≤ 971)
    (h : (Interval.around m q).Contains q (n * 10 ^ e)) :
    UnpackedFloat.ofScientific Format.binary64 n e = .finite .positive m q hc.positive := by
  obtain ⟨hrange, -⟩ := contains_range hc hq h
  have hbits : (2 ^ Format.binary64.exponentBits : Int) = 2048 := rfl
  have hsmall : ¬ e < -((2 ^ Format.binary64.exponentBits : Int) + n.log2) := by
    intro hlt
    have hlow : (n : ℚ) * 10 ^ e < 2 ^ (-1075 : Int) := quotient_lt he (by omega)
    linarith
  rw [UnpackedFloat.ofScientific, dif_neg hn.ne', if_neg (by omega), if_neg hsmall]
  by_cases hnonneg : 0 ≤ e
  · -- The exponent is zero, and the product is one with one.
    obtain rfl : e = 0 := by omega
    rw [if_pos hnonneg]
    refine mul_eq _ _ ?_ hc ?_
    · have hpos : n <<< 53 * 10 ^ (0 : Int).toNat ≠ 0 := by simp [Nat.shiftLeft_eq, hn.ne']
      refine (Nat.le_log2 hpos).mpr ?_
      rw [Int.toNat_zero, pow_zero, mul_one, Nat.shiftLeft_eq]
      calc 2 ^ 52 ≤ 1 * 2 ^ 53 := by norm_num
        _ ≤ n * 2 ^ 53 := Nat.mul_le_mul_right _ hn
    · convert h using 1
      have hmantissa : Format.binary64.mantissaBits = 53 := rfl
      rw [hmantissa, Nat.shiftLeft_eq, Int.toNat_zero]
      push_cast
      field_simp
      norm_num
  · rw [if_neg hnonneg]
    refine div_eq _ _ hc ?_
    convert h using 1
    have hexponent : e = -((-e).toNat : Int) := by omega
    rw [zpow_zero, mul_one, mul_one]
    nth_rewrite 2 [hexponent]
    rw [zpow_neg, zpow_natCast]
    push_cast
    rfl

/-- **A quotient with a power of ten is read as the double in whose interval it lies.** -/
theorem ofScientific_quotient {e : Nat} (hn : 0 < n) (hc : Canonical m q) (hq : q ≤ 971)
    (h : (Interval.around m q).Contains q (n * 10 ^ (-(e : Int)))) :
    Float.ofScientific n true e = pack false hc := by
  by_cases hfast : n < 2 ^ 53 ∧ e ≤ 22
  · obtain ⟨hlt, he⟩ := hfast
    obtain ⟨-, -, hvalue⟩ := canonical_shiftLeft hn hlt
    obtain ⟨m', q', hm', hunpack, hpower⟩ := unpack_powerOfTen ⟨e, by omega⟩
    have hdiv : Float.ofScientific n true e = .ofModel (.pack (UnpackedFloat.div Format.binary64
        n.toUInt64.toFloat.toModel.unpack (powerOfTen ⟨e, by omega⟩).toModel.unpack)) := by
      rw [Float.ofScientific, dif_pos ⟨hlt, he⟩]
      rfl
    have hquotient : UnpackedFloat.div Format.binary64 n.toUInt64.toFloat.toModel.unpack
        (powerOfTen ⟨e, by omega⟩).toModel.unpack = .finite .positive m q hc.positive := by
      rw [unpack_toFloat hn hlt, hunpack]
      refine div_eq _ _ hc ?_
      rw [hvalue, hpower]
      rwa [zpow_neg, zpow_natCast, ← div_eq_mul_inv] at h
    rw [hdiv, hquotient]
    rfl
  · have hslow : Float.ofScientific n true e =
        .ofModel (.pack (UnpackedFloat.ofScientific Format.binary64 n (-(e : Int)))) := by
      rw [Float.ofScientific, dif_neg hfast]
      simp only [if_true, Int.negOfNat_eq]
      rfl
    rw [hslow, modelOfScientific_eq hn (by omega) hc hq h]
    rfl

/-- **A whole number is read as the double in whose interval it lies.** -/
theorem ofScientific_whole (hn : 0 < n) (hc : Canonical m q) (hq : q ≤ 971)
    (h : (Interval.around m q).Contains q n) : Float.ofScientific n false 0 = pack false hc := by
  by_cases hlt : n < 2 ^ 53
  · obtain ⟨-, hlow, hvalue⟩ := canonical_shiftLeft hn hlt
    obtain ⟨m', q', hm', hunpack, hpower⟩ := unpack_powerOfTen 0
    have hmul : Float.ofScientific n false 0 = .ofModel (.pack (UnpackedFloat.mul Format.binary64
        n.toUInt64.toFloat.toModel.unpack (powerOfTen 0).toModel.unpack)) := by
      rw [Float.ofScientific, dif_pos ⟨hlt, by omega⟩]
      rfl
    have hproduct : UnpackedFloat.mul Format.binary64 n.toUInt64.toFloat.toModel.unpack
        (powerOfTen 0).toModel.unpack = .finite .positive m q hc.positive := by
      rw [unpack_toFloat hn hlt, hunpack]
      refine mul_eq _ _ ?_ hc ?_
      · refine (Nat.le_log2 (Nat.mul_pos (by omega) hm').ne').mpr ?_
        exact hlow.trans (Nat.le_mul_of_pos_right _ hm')
      · rw [hvalue, hpower]
        simpa using h
    rw [hmul, hproduct]
    rfl
  · have hslow : Float.ofScientific n false 0 =
        .ofModel (.pack (UnpackedFloat.ofScientific Format.binary64 n 0)) := by
      rw [Float.ofScientific, dif_neg fun hfast => hlt hfast.1]
      rfl
    rw [hslow, modelOfScientific_eq hn (le_refl 0) hc hq (by simpa using h)]
    rfl

/-- A power of ten has three bits for each zero and more. -/
theorem two_zpow_lt_ten {k l : Nat} (h : k < 3 * l) : (2 : ℚ) ^ (k : Int) < 10 ^ (l : Int) := by
  rw [zpow_natCast, zpow_natCast]
  calc (2 : ℚ) ^ k < 2 ^ (3 * l) := pow_lt_pow_right₀ (by norm_num) h
    _ = 8 ^ l := by rw [pow_mul]; norm_num
    _ ≤ 10 ^ l := pow_le_pow_left₀ (by norm_num) (by norm_num) l

/-- A decimal with so many places behind the point is below all doubles. -/
theorem decimal_lt {digits : Nat} {e : Int} (hdigits : n < 10 ^ digits) (he : e + digits ≤ -400) :
    (n : ℚ) * 10 ^ e < 2 ^ (-1075 : Int) := by
  have hn : (n : ℚ) < 10 ^ (digits : Int) := by exact_mod_cast hdigits
  calc (n : ℚ) * 10 ^ e < 10 ^ (digits : Int) * 10 ^ e :=
        mul_lt_mul_of_pos_right hn (by positivity)
    _ = 10 ^ (e + digits) := by rw [← zpow_add₀ (by norm_num), add_comm]
    _ ≤ 10 ^ (-400 : Int) := zpow_le_zpow_right₀ (by norm_num) he
    _ = ((10 : ℚ) ^ (400 : Int))⁻¹ := zpow_neg _ _
    _ < (2 ^ (1075 : Int))⁻¹ := inv_strictAnti₀ (by positivity) (two_zpow_lt_ten (by norm_num))
    _ = 2 ^ (-1075 : Int) := (zpow_neg _ _).symm

/-- A decimal with so many places before the point is above all doubles. -/
theorem lt_decimal {e : Int} (hn : 0 < n) (he : 400 ≤ e) : (2 : ℚ) ^ (1024 : Int) < n * 10 ^ e := by
  have hn' : (1 : ℚ) ≤ n := by exact_mod_cast hn
  calc (2 : ℚ) ^ (1024 : Int) < 10 ^ (400 : Int) := two_zpow_lt_ten (by norm_num)
    _ ≤ 10 ^ e := zpow_le_zpow_right₀ (by norm_num) he
    _ = 1 * 10 ^ e := (one_mul _).symm
    _ ≤ n * 10 ^ e := mul_le_mul_of_nonneg_right hn' (by positivity)

/-- **A decimal is read as the double in whose interval it lies.**  Its digits may begin with
zeros. -/
theorem ofScaled_eq {digits : Nat} {e : Int} (hn : 0 < n) (hdigits : n < 10 ^ digits)
    (hc : Canonical m q) (hq : q ≤ 971)
    (h : (Interval.around m q).Contains q (n * 10 ^ e)) :
    Number.ofScaled n digits e = pack false hc := by
  obtain ⟨hlow, hhigh⟩ := contains_range hc hq h
  have hlimit : exponentReach = 400 := rfl
  have hreach : ¬ e + digits < -exponentReach := by
    intro hlt
    have := decimal_lt hdigits (show e + digits ≤ -400 by omega)
    linarith
  have hreach' : ¬ exponentReach < e := by
    intro hlt
    have := lt_decimal hn (show 400 ≤ e by omega)
    linarith
  rw [Number.ofScaled, if_neg (by simp [hn.ne', Int.not_lt.mp hreach]), if_neg hreach']
  split
  · next hnonneg =>
    refine ofScientific_whole (Nat.mul_pos hn (Nat.pow_pos (by norm_num))) hc hq ?_
    convert h using 1
    push_cast [Nat.pow_eq]
    rw [← zpow_natCast, Int.toNat_of_nonneg hnonneg]
  · next hneg =>
    refine ofScientific_quotient hn hc hq ?_
    rwa [Int.toNat_of_nonneg (by omega), neg_neg]

end Decimals

end Number
end FormulaEvolution
