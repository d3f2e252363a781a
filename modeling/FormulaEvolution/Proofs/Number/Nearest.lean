/-
# Whole numbers near doubles

`RoundsTo` says what it means that a whole number is a double rounded: no other one is nearer, and of two
that are as near it is the even one.  There is one such number at most (`RoundsTo.unique`), and `nearest` gives
it (`roundsTo_nearest`).

The way back is `toFloat_eq_pack`: every whole number below the largest double has a double next to it.
Shares of such doubles are finite (`isFinite_share`).
-/
import FormulaEvolution.Proofs.Number.Shortest
import FormulaEvolution.Proofs.Random.Spread

namespace FormulaEvolution
namespace Number

/-! ## 1. From doubles to whole numbers -/

/-- Between two whole numbers a quotient is rounded to the even one. -/
theorem even_roundDiv (num : Nat) {den : Nat} (hden : 0 < den)
    (h : |(roundDiv num den : ℚ) - num / den| = 1 / 2) : roundDiv num den % 2 = 0 := by
  have hden' : (0 : ℚ) < den := by exact_mod_cast hden
  have hhalf : 2 * roundDiv num den * den = 2 * num + den ∨
      2 * num = 2 * roundDiv num den * den + den := by
    have hquotient : (num : ℚ) / den * den = num := div_mul_cancel₀ _ hden'.ne'
    rcases (abs_eq (by norm_num)).mp h with heq | heq
    · left
      have hscaled := congrArg (· * (2 * den : ℚ)) heq
      have hcast : (2 * roundDiv num den * den : ℚ) = 2 * num + den := by
        simp only [sub_mul] at hscaled
        linarith
      exact_mod_cast hcast
    · right
      have hscaled := congrArg (· * (2 * den : ℚ)) heq
      have hcast : (2 * num : ℚ) = 2 * roundDiv num den * den + den := by
        simp only [sub_mul] at hscaled
        linarith
      exact_mod_cast hcast
  have hsplit := Nat.div_add_mod num den
  have hrest := Nat.mod_lt num hden
  have hup : 2 * (num / den + 1) * den = 2 * (den * (num / den)) + 2 * den := by ring
  have hdown : 2 * (num / den) * den = 2 * (den * (num / den)) := by ring
  simp only [roundDiv] at hhalf ⊢
  split at hhalf
  · rw [hdown] at hhalf
    omega
  · split at hhalf
    · rw [hup] at hhalf
      omega
    · rw [if_neg ‹_›, if_neg ‹_›]
      split
      · assumption
      · omega

/-- A whole number is a double rounded: it is no more than a half away, and even if it is a half
away. -/
def RoundsTo (x : Float) (k : Int) : Prop :=
  ∃ negative m q, decode x = .finite negative m q ∧ |signedValue negative m q - k| ≤ 1 / 2 ∧
    (|signedValue negative m q - k| = 1 / 2 → Even k)

/-- Of two whole numbers that a double is rounded to, none is the smaller one. -/
theorem RoundsTo.not_less {x : Float} {k l : Int} (hk : RoundsTo x k) (hl : RoundsTo x l) : ¬k < l := by
  intro hlt
  obtain ⟨negative, m, q, hdecode, hnear, heven⟩ := hk
  obtain ⟨negative', m', q', hdecode', hnear', heven'⟩ := hl
  rw [hdecode] at hdecode'
  cases hdecode'
  generalize signedValue negative m q = v at hnear heven hnear' heven'
  have hnext : (k : ℚ) + 1 ≤ l := by exact_mod_cast hlt
  obtain ⟨-, hright⟩ := abs_le.mp hnear
  obtain ⟨hleft', -⟩ := abs_le.mp hnear'
  -- Both are a half away, so they are neighbours, and both are even.
  have htie : v - k = 1 / 2 := by linarith
  have htie' : v - l = -(1 / 2) := by linarith
  obtain ⟨i, hi⟩ := heven (by rw [htie]; norm_num)
  obtain ⟨j, hj⟩ := heven' (by rw [htie']; norm_num)
  have hcast : (l : ℚ) = (k + 1 : Int) := by
    push_cast
    linarith
  have hneighbours : l = k + 1 := by exact_mod_cast hcast
  omega

/-- A double is rounded to one whole number only. -/
theorem RoundsTo.unique {x : Float} {k l : Int} (hk : RoundsTo x k) (hl : RoundsTo x l) : k = l :=
  le_antisymm (not_lt.mp (hl.not_less hk)) (not_lt.mp (hk.not_less hl))

/-- **The nearest whole number is the double rounded.** -/
theorem roundsTo_nearest {x : Float} (h : isFinite x = true) : RoundsTo x (nearest x) := by
  match hdecode : decode x with
  | .nan => simp [isFinite, hdecode] at h
  | .infinite _ => simp [isFinite, hdecode] at h
  | .finite negative m q =>
    obtain ⟨-, hdown, hpower⟩ := power_eq 2 q (by norm_num)
    have hdown' : ((power 2 q).2 : ℚ) ≠ 0 := by exact_mod_cast hdown.ne'
    have hvalue : ((m * (power 2 q).1 : Nat) : ℚ) / (power 2 q).2 = m * 2 ^ q := by
      push_cast at hpower ⊢
      rw [hpower, mul_div_assoc, mul_div_assoc, div_self hdown', mul_one]
    have hnear := @roundDiv_near (m * (power 2 q).1) _ hdown
    have heven := even_roundDiv (m * (power 2 q).1) hdown
    have hnearest : nearest x = if negative then -(roundDiv (m * (power 2 q).1) (power 2 q).2 : Int)
        else (roundDiv (m * (power 2 q).1) (power 2 q).2 : Int) := by
      rw [nearest, hdecode]
      rfl
    rw [hvalue] at hnear heven
    generalize roundDiv (m * (power 2 q).1) (power 2 q).2 = k at hnear heven hnearest
    have habs : |signedValue negative m q - nearest x| = |(k : ℚ) - m * 2 ^ q| := by
      rw [hnearest]
      cases negative with
      | true =>
        simp only [signedValue, if_true]
        push_cast
        rw [neg_sub_neg]
      | false =>
        simp only [signedValue, Bool.false_eq_true, if_false]
        push_cast
        rw [abs_sub_comm]
    refine ⟨negative, m, q, hdecode, habs.trans_le hnear, fun htie => ?_⟩
    have hk : Even (k : Int) := by
      exact_mod_cast Nat.even_iff.mpr (heven (habs.symm.trans htie))
    rw [hnearest]
    split
    · exact hk.neg
    · exact hk

/-! ## 2. From whole numbers to doubles -/

section Whole

variable {n k e : Nat}

/-- A whole number of more than 53 bits, in units of its last but 53rd bit. -/
theorem scaled_bounds (hlarge : 2 ^ 53 ≤ n) : 0 < n.log2 - 52 ∧
    2 ^ 52 * 2 ^ (n.log2 - 52) ≤ n ∧ n < 2 ^ 53 * 2 ^ (n.log2 - 52) := by
  have hpos : n ≠ 0 := by omega
  have hlog : 53 ≤ n.log2 := (Nat.le_log2 hpos).mpr hlarge
  refine ⟨by omega, ?_, ?_⟩
  · rw [← pow_add, show 52 + (n.log2 - 52) = n.log2 by omega]
    exact Nat.log2_self_le hpos
  · rw [← pow_add, show 53 + (n.log2 - 52) = n.log2 + 1 by omega]
    exact Nat.lt_log2_self

/-- What is rounded to a mantissa lies in its interval. -/
theorem contains_of_rounded (hk : 2 ^ 52 ≤ k) (hn : 2 ^ 52 * 2 ^ e ≤ n)
    (hnear : |(k : ℚ) - n / 2 ^ e| ≤ 1 / 2) (heven : |(k : ℚ) - n / 2 ^ e| = 1 / 2 → k % 2 = 0) :
    (Interval.around k e).Contains e n := by
  have hunit : (0 : ℚ) < 2 ^ e := by positivity
  have hn' : (2 : ℚ) ^ 52 * 2 ^ e ≤ n := by exact_mod_cast hn
  have hvalue : (n : ℚ) = n / 2 ^ e * 2 ^ e := (div_mul_cancel₀ _ hunit.ne').symm
  obtain ⟨hleft, hright⟩ := abs_le.mp hnear
  have hlow : ((Interval.around k e).low : ℚ) * 2 ^ ((e : Int) - 2) ≤ n := by
    rw [Interval.low_around (by omega), zpow_natCast]
    split
    · next hhidden =>
      have hcast : (k : ℚ) = 2 ^ 52 := by exact_mod_cast hhidden.1
      rw [hcast]
      refine le_trans (mul_le_mul_of_nonneg_right ?_ hunit.le) hn'
      norm_num
    · rw [hvalue]
      exact mul_le_mul_of_nonneg_right (by linarith) hunit.le
  have hhigh : (n : ℚ) ≤ (Interval.around k e).high * 2 ^ ((e : Int) - 2) := by
    rw [Interval.high_around, zpow_natCast, hvalue]
    exact mul_le_mul_of_nonneg_right (by linarith) hunit.le
  refine ⟨⟨hlow, hhigh⟩, fun hopen => ?_⟩
  have hodd : ¬k % 2 = 0 := by simpa [Interval.around] using hopen
  have hstrict : |(k : ℚ) - n / 2 ^ e| < 1 / 2 := lt_of_le_of_ne hnear fun htie => hodd (heven htie)
  have hhidden : ¬(k = hiddenBit ∧ lastPlace < (e : Int)) := fun h => hodd (by rw [h.1]; rfl)
  obtain ⟨hleft, hright⟩ := abs_lt.mp hstrict
  rw [Interval.low_around (by omega), if_neg hhidden, Interval.high_around, zpow_natCast, hvalue]
  exact ⟨mul_lt_mul_of_pos_right (by linarith) hunit, mul_lt_mul_of_pos_right (by linarith) hunit⟩

/-- What is rounded to a mantissa of one bit more lies in the interval of the next power of two. -/
theorem contains_of_carry (hn : n < 2 ^ 53 * 2 ^ e) (hnear : (2 ^ 53 : ℚ) - n / 2 ^ e ≤ 1 / 2) :
    (Interval.around (2 ^ 52) (e + 1)).Contains (e + 1) n := by
  have hunit : (0 : ℚ) < 2 ^ e := by positivity
  have hn' : (n : ℚ) < 2 ^ 53 * 2 ^ e := by exact_mod_cast hn
  have hvalue : (n : ℚ) = n / 2 ^ e * 2 ^ e := (div_mul_cancel₀ _ hunit.ne').symm
  have hnext : (2 : ℚ) ^ ((e : Int) + 1) = 2 * 2 ^ e := by
    rw [zpow_add₀ (by norm_num), zpow_natCast]
    ring
  refine ⟨⟨?_, ?_⟩, fun hopen => ?_⟩
  · rw [Interval.low_around (by norm_num), if_pos ⟨rfl, by unfold lastPlace; omega⟩, hnext, hvalue,
      ← mul_assoc]
    refine mul_le_mul_of_nonneg_right ?_ hunit.le
    push_cast
    linarith
  · rw [Interval.high_around, hnext, ← mul_assoc]
    refine hn'.le.trans (mul_le_mul_of_nonneg_right ?_ hunit.le)
    norm_num
  · simp [Interval.around] at hopen

theorem overflowBound_eq : overflowBound = (2 ^ 54 - 1) * 2 ^ 970 := by decide +kernel

/-- Below `2 ^ 54 - 1` units of `2 ^ p` there is no carry into an exponent that is too large. -/
theorem carry_fits {p : Nat} (hlt : n < (2 ^ 54 - 1) * 2 ^ p) (hn : 2 ^ 52 * 2 ^ e ≤ n) : e ≤ p + 1 ∧
    ((2 ^ 53 : ℚ) - n / 2 ^ e ≤ 1 / 2 → e + 1 ≤ p + 1) := by
  have hdouble : 2 ^ (p + 1) = 2 ^ p * 2 := Nat.pow_succ ..
  have hfits : e ≤ p + 1 := by
    by_contra hmore
    have hpow : 2 ^ (p + 1) * 2 ≤ 2 ^ e := by
      rw [← Nat.pow_succ]
      exact Nat.pow_le_pow_right (by norm_num) (by omega)
    omega
  refine ⟨hfits, fun hnear => ?_⟩
  rcases Nat.lt_or_eq_of_le hfits with hless | rfl
  · omega
  · -- The last exponent is left only by what is beyond the bound.
    have hunit : (0 : ℚ) < 2 ^ (p + 1) := by positivity
    have hcast : (n : ℚ) < (2 ^ 54 - 1 : Nat) * 2 ^ p := by exact_mod_cast hlt
    rw [sub_le_iff_le_add, ← sub_le_iff_le_add', le_div_iff₀ hunit, pow_succ (2 : ℚ) p] at hnear
    push_cast at hcast
    linarith

/-- **A whole number below the largest double has a double next to it.** -/
theorem toFloat_eq_pack (hpos : 0 < n) (hlt : n < overflowBound) :
    ∃ (m : Nat) (q : Int) (h : Canonical m q), q ≤ 971 ∧ n.toFloat = pack false h := by
  rcases Nat.lt_or_ge n (2 ^ 53) with hsmall | hlarge
  · -- All its bits fit in.
    obtain ⟨hc, -, hvalue⟩ := canonical_shiftLeft hpos hsmall
    have hlog : n.log2 < 53 := (Nat.log2_lt hpos.ne').mpr hsmall
    have hself := contains_self (q := (n.log2 : Int) - 52) hc.positive
    rw [hvalue] at hself
    exact ⟨_, _, hc, by omega, ofScientific_whole hpos hc (by omega) hself⟩
  · obtain ⟨he, hlow, hhigh⟩ := scaled_bounds hlarge
    generalize n.log2 - 52 = e at he hlow hhigh
    obtain ⟨hfits, hcarry⟩ := carry_fits (overflowBound_eq ▸ hlt) hlow
    have hunit : (0 : ℚ) < 2 ^ e := by positivity
    have hnear := @roundDiv_near n _ (Nat.two_pow_pos e)
    have heven := even_roundDiv n (Nat.two_pow_pos e)
    generalize roundDiv n (2 ^ e) = k at hnear heven
    push_cast at hnear heven
    obtain ⟨hleft, hright⟩ := abs_le.mp hnear
    have hquotient : (2 : ℚ) ^ 52 ≤ n / 2 ^ e ∧ (n : ℚ) / 2 ^ e < 2 ^ 53 := by
      rw [le_div_iff₀ hunit, div_lt_iff₀ hunit]
      exact ⟨by exact_mod_cast hlow, by exact_mod_cast hhigh⟩
    have hk : 2 ^ 52 ≤ k ∧ k ≤ 2 ^ 53 := by
      have hless : ((2 ^ 52 : Nat) : ℚ) < (k + 1 : Nat) := by
        push_cast
        linarith [hquotient.1]
      have hmore : (k : ℚ) < (2 ^ 53 + 1 : Nat) := by
        push_cast
        linarith [hquotient.2]
      have hless' : 2 ^ 52 < k + 1 := by exact_mod_cast hless
      have hmore' : k < 2 ^ 53 + 1 := by exact_mod_cast hmore
      omega
    rcases Nat.lt_or_eq_of_le hk.2 with hless | hcarried
    · have hc : Canonical k e := ⟨by omega, hless, .inl hk.1, by omega⟩
      exact ⟨k, e, hc, by omega,
        ofScientific_whole hpos hc (by omega) (contains_of_rounded hk.1 hlow hnear heven)⟩
    · -- Rounding has given it one bit more.
      have hcast : (k : ℚ) = 2 ^ 53 := by exact_mod_cast hcarried
      rw [hcast] at hright
      have hc : Canonical (2 ^ 52) (e + 1) := ⟨by norm_num, by norm_num, .inl le_rfl, by omega⟩
      have hfits := hcarry hright
      exact ⟨_, _, hc, by omega, ofScientific_whole hpos hc (by omega) (contains_of_carry hhigh hright)⟩

end Whole

/-- What is a zero or a magnitude is finite. -/
theorem isFinite_of_unpack {x : Float} {u : Float.Model.UnpackedFloat} (hx : x.toModel.unpack = u)
    (hinfinity : ∀ s, u ≠ .infinity s) (hnumber : u ≠ .notANumber) : isFinite x = true := by
  match hdecode : decode x with
  | .nan =>
    rw [eq_notANumber hdecode] at hx
    exact absurd hx.symm hnumber
  | .infinite negative =>
    rw [eq_infinity hdecode] at hx
    cases negative with
    | true => exact absurd hx.symm (hinfinity .negative)
    | false => exact absurd hx.symm (hinfinity .positive)
  | .finite .. => simp [isFinite, hdecode]

/-- **A share of a whole number is finite.** -/
theorem isFinite_share {n : Nat} {u : Float} (hlt : n < overflowBound) (hlow : 0.0 ≤ u)
    (hhigh : u ≤ 1.0) : isFinite (n.toFloat * u) = true := by
  rcases Nat.eq_zero_or_pos n with rfl | hpos
  · have hnone : (0 : Nat).toFloat.toModel.unpack = .zero .positive := rfl
    obtain ⟨s, hzero⟩ := unpack_zero_mul hnone hlow hhigh
    exact isFinite_of_unpack hzero nofun nofun
  · obtain ⟨m, q, h, hq, hfloat⟩ := toFloat_eq_pack hpos hlt
    rw [hfloat]
    rcases unpack_mul_unit h hq hlow hhigh with ⟨s, hzero⟩ | ⟨m', q', h', -, hfinite⟩
    · exact isFinite_of_unpack hzero nofun nofun
    · exact isFinite_of_unpack hfinite nofun nofun

end Number
end FormulaEvolution
