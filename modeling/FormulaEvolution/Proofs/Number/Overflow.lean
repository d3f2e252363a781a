/-
# Sums, means and deviations that are finite

What is finite is known of what it is made from: the terms of a finite sum, the numerator of a finite
quotient, the radicand of a finite root (`isFinite_of_add`, `isFinite_of_div`, `isFinite_of_sqrt`).  The mean
of some doubles is finite exactly if their sum is, and their deviation is exactly if the sum of the squared
distances to the mean is (`isFinite_mean_iff`, `isFinite_deviation_iff`).

A sum of doubles of at most `2 ^ j` never leaves `2 ^ (j + 53)`, however many there are: at that size another
term is no more than half a unit of the last place, and is lost (`Within.add`, `within_total`).
-/
import FormulaEvolution.Primitive
import FormulaEvolution.Proofs.Number.Nearest
import Mathlib.Algebra.Order.Archimedean.Basic

namespace FormulaEvolution
namespace Number

open Float.Model Float.Model.UnpackedFloat

variable {x y : Float} {u u' : UnpackedFloat} {v v' w : ℚ} {j k n : Nat} {xs : List Float}

/-! ## 1. What is not finite -/

/-- An infinity, or no number. -/
inductive Special : UnpackedFloat → Prop
  | infinity (s : UnpackedFloat.Sign) : Special (.infinity s)
  | notANumber : Special .notANumber

/-- A finite number that has been unpacked, and what it stands for. -/
inductive Means : UnpackedFloat → ℚ → Prop
  | zero (s : UnpackedFloat.Sign) : Means (.zero s) 0
  | finite (negative : Bool) {m : Nat} {q : Int} (h : Canonical m q) : q ≤ 971 →
      Means (.finite (signOf negative) m q h.positive) (signedValue negative m q)

/-- A finite double and the number that it stands for. -/
def Stands (x : Float) (v : ℚ) : Prop := Means x.toModel.unpack v

theorem Means.not_special (h : Means u v) : ¬Special u := by
  cases h with
  | zero s => exact nofun
  | finite negative h hq => exact nofun

/-- A double is finite and stands for a number, or it is not finite. -/
theorem stands_or_special (x : Float) :
    (isFinite x = true ∧ ∃ v, Stands x v) ∨ (isFinite x = false ∧ Special x.toModel.unpack) := by
  match hdecode : decode x with
  | .nan =>
    rw [eq_notANumber hdecode]
    exact .inr ⟨by decide +kernel, .notANumber⟩
  | .infinite negative =>
    rw [eq_infinity hdecode]
    cases negative with
    | true => exact .inr ⟨by decide +kernel, .infinity .negative⟩
    | false => exact .inr ⟨by decide +kernel, .infinity .positive⟩
  | .finite negative m q =>
    refine .inl ⟨by simp [isFinite, hdecode], ?_⟩
    rcases Nat.eq_zero_or_pos m with rfl | hm
    · refine ⟨0, ?_⟩
      rw [eq_zero_of_decode hdecode, Stands, unpack_zero]
      exact .zero _
    · obtain ⟨h, hq, rfl⟩ := decode_eq_pack hdecode hm
      refine ⟨signedValue negative m q, ?_⟩
      rw [Stands, unpack_toModel negative h hq]
      exact .finite negative h hq

/-- **A double is finite exactly if it stands for a number.** -/
theorem isFinite_iff_stands : isFinite x = true ↔ ∃ v, Stands x v := by
  rcases stands_or_special x with ⟨hfinite, hstands⟩ | ⟨hfinite, hspecial⟩
  · exact iff_of_true hfinite hstands
  · rw [hfinite]
    exact iff_of_false Bool.false_ne_true fun ⟨v, h⟩ => h.not_special hspecial

/-- **A double is not finite exactly if it is an infinity or no number.** -/
theorem isFinite_eq_false_iff : isFinite x = false ↔ Special x.toModel.unpack := by
  rcases stands_or_special x with ⟨hfinite, v, hstands⟩ | ⟨hfinite, hspecial⟩
  · rw [hfinite]
    exact iff_of_false (Bool.true_eq_false_eq_False) hstands.not_special
  · exact iff_of_true hfinite hspecial

theorem Special.isFinite_pack (h : Special u) : isFinite (.ofModel (.pack u)) = false := by
  rw [isFinite_eq_false_iff]
  cases h with
  | infinity s =>
    rw [unpack_pack_infinity]
    exact .infinity s
  | notANumber => exact .notANumber

/-! ### What is made of it -/

theorem Special.add_left (h : Special u) (u' : UnpackedFloat) :
    Special (UnpackedFloat.add Format.binary64 u u') := by
  cases h with
  | notANumber => exact .notANumber
  | infinity s =>
    cases u' with
    | infinity s' => cases s <;> cases s' <;> first | exact .infinity _ | exact .notANumber
    | notANumber => exact .notANumber
    | zero s' => exact .infinity s
    | finite s' m q h => exact .infinity s

theorem Special.add_right (h : Special u') (u : UnpackedFloat) :
    Special (UnpackedFloat.add Format.binary64 u u') := by
  cases u with
  | notANumber => exact .notANumber
  | infinity s => exact (Special.infinity s).add_left u'
  | zero s =>
    cases h with
    | notANumber => exact .notANumber
    | infinity s' => exact .infinity s'
  | finite s m q hm =>
    cases h with
    | notANumber => exact .notANumber
    | infinity s' => exact .infinity s'

theorem Special.mul_left (h : Special u) (u' : UnpackedFloat) :
    Special (UnpackedFloat.mul Format.binary64 u u') := by
  cases h with
  | notANumber => exact .notANumber
  | infinity s =>
    cases u' with
    | infinity s' => exact .infinity _
    | notANumber => exact .notANumber
    | zero s' => exact .notANumber
    | finite s' m q h => exact .infinity _

theorem Special.div_left (h : Special u) (u' : UnpackedFloat) :
    Special (UnpackedFloat.div Format.binary64 u u') := by
  cases h with
  | notANumber => exact .notANumber
  | infinity s =>
    cases u' with
    | infinity s' => exact .notANumber
    | notANumber => exact .notANumber
    | zero s' => exact .infinity _
    | finite s' m q h => exact .infinity _

theorem Special.sqrt (h : Special u) : Special (UnpackedFloat.sqrt Format.binary64 u) := by
  cases h with
  | notANumber => exact .notANumber
  | infinity s =>
    cases s with
    | positive => exact .infinity .positive
    | negative => exact .notANumber

/-- What makes a result special makes it infinite or absent, so what a finite result is made of is finite. -/
theorem isFinite_of_pack (h : Special x.toModel.unpack → Special u)
    (hfinite : isFinite (.ofModel (.pack u)) = true) : isFinite x = true := by
  by_contra hx
  rw [Bool.not_eq_true, isFinite_eq_false_iff] at hx
  rw [(h hx).isFinite_pack] at hfinite
  cases hfinite

/-- **The terms of a finite sum are finite.** -/
theorem isFinite_of_add (h : isFinite (x + y) = true) : isFinite x = true ∧ isFinite y = true :=
  ⟨isFinite_of_pack (fun hx => hx.add_left _) h, isFinite_of_pack (fun hy => hy.add_right _) h⟩

theorem isFinite_of_mul (h : isFinite (x * y) = true) : isFinite x = true :=
  isFinite_of_pack (fun hx => hx.mul_left _) h

/-- **The numerator of a finite quotient is finite.** -/
theorem isFinite_of_div (h : isFinite (x / y) = true) : isFinite x = true :=
  isFinite_of_pack (fun hx => hx.div_left _) h

/-- **The radicand of a finite root is finite.** -/
theorem isFinite_of_sqrt (h : isFinite x.sqrt = true) : isFinite x = true :=
  isFinite_of_pack (fun hx => hx.sqrt) h

/-- **What is added up to something finite is finite.** -/
theorem isFinite_of_foldl {a : Float} (h : isFinite (xs.foldl (· + ·) a) = true) :
    isFinite a = true ∧ ∀ x ∈ xs, isFinite x = true := by
  induction xs generalizing a with
  | nil => exact ⟨h, nofun⟩
  | cons x xs ih =>
    obtain ⟨hsum, hrest⟩ := ih h
    obtain ⟨ha, hx⟩ := isFinite_of_add hsum
    exact ⟨ha, List.forall_mem_cons.mpr ⟨hx, hrest⟩⟩

/-! ## 2. What is finite -/

theorem Means.unpack_pack (h : Means u v) : (Float.ofModel (.pack u)).toModel.unpack = u := by
  cases h with
  | zero s => exact unpack_pack_zero s
  | finite negative h hq => exact Number.unpack_pack (signOf negative) h hq

theorem Means.stands_pack (h : Means u v) : Stands (.ofModel (.pack u)) v := by
  rw [Stands, h.unpack_pack]
  exact h

theorem Means.neg (h : Means u v) : Means u.neg (-v) := by
  cases h with
  | zero s =>
    rw [neg_zero]
    exact .zero (-s)
  | @finite negative m q h hq =>
    have hneg : -signedValue negative m q = signedValue (!negative) m q := by
      cases negative with
      | true => exact neg_neg _
      | false => rfl
    rw [hneg]
    cases negative with
    | true => exact .finite false h hq
    | false => exact .finite true h hq

/-- A double is what it is rounded to. -/
theorem isRounding_self (negative : Bool) {m : Nat} {q : Int} (h : Canonical m q) :
    IsRounding (signedValue negative m q) (.finite (signOf negative) m q h.positive) := by
  have hsign : decide (signedValue negative m q < 0) = negative := by
    rw [Bool.eq_iff_iff, decide_eq_true_iff]
    exact signedValue_lt_zero_iff negative h.positive q
  have hvalue : (m : ℚ) * 2 ^ q / 2 ^ q = m := mul_div_cancel_right₀ _ (by positivity)
  have hrep : Represents (.ofMantissaAndAccuracy m .exact) (m * 2 ^ q / 2 ^ q) :=
    hvalue.symm ▸ represents_exact m
  rw [← roundWithAccuracy_eq (signOf negative) hrep h.target.ge h (contains_self h.positive)]
  exact isRounding_roundWithAccuracy (by rw [hsign]) (abs_signedValue negative m q ▸ hrep) h.target.ge

/-! ### Sums, differences, products and quotients are rounded -/

theorem Means.add (h : Means u v) (h' : Means u' v') :
    IsRounding (v + v') (UnpackedFloat.add Format.binary64 u u') := by
  cases h with
  | zero s =>
    rw [zero_add]
    cases h' with
    | zero s' => cases s <;> cases s' <;> exact isRounding_zero _
    | finite negative' h' hq' => exact isRounding_self negative' h'
  | finite negative h hq =>
    cases h' with
    | zero s' =>
      rw [add_zero]
      exact isRounding_self negative h
    | finite negative' h' hq' => exact isRounding_add negative negative' h.positive h'.positive

/-- To subtract is to add the negative. -/
theorem sub_eq_add (u u' : UnpackedFloat) :
    UnpackedFloat.sub Format.binary64 u u' = UnpackedFloat.add Format.binary64 u u'.neg := by
  cases u with
  | notANumber => rfl
  | infinity s => cases u' <;> rfl
  | zero s => cases u' <;> rfl
  | finite s m q h =>
    cases u' with
    | notANumber => rfl
    | infinity s' => rfl
    | zero s' => rfl
    | finite s' m' q' h' =>
      have hsign : ∀ n : Nat, (-s').apply n = -s'.apply n := by
        intro n
        cases s' with
        | positive => rfl
        | negative => exact (neg_neg _).symm
      have hsub : UnpackedFloat.sub Format.binary64 (.finite s m q h) (.finite s' m' q' h') =
          UnpackedFloat.normalize Format.binary64 (s.apply (m <<< (q - min q q').toNat : Nat) -
            s'.apply (m' <<< (q' - min q q').toNat : Nat)) (min q q') .positive := rfl
      rw [hsub, sub_eq_add_neg, ← hsign]
      rfl

theorem Means.sub (h : Means u v) (h' : Means u' v') :
    IsRounding (v - v') (UnpackedFloat.sub Format.binary64 u u') := by
  rw [sub_eq_add, sub_eq_add_neg]
  exact h.add h'.neg

theorem Means.mul (h : Means u v) (h' : Means u' v') :
    IsRounding (v * v') (UnpackedFloat.mul Format.binary64 u u') := by
  cases h with
  | zero s =>
    rw [zero_mul]
    cases h' with
    | zero s' => exact isRounding_zero _
    | finite negative' h' hq' => exact isRounding_zero _
  | finite negative h hq =>
    cases h' with
    | zero s' =>
      rw [mul_zero]
      exact isRounding_zero _
    | finite negative' h' hq' => exact isRounding_mul negative negative' h h'

theorem Means.div (h : Means u v) (h' : Means u' v') (hne : v' ≠ 0) :
    IsRounding (v / v') (UnpackedFloat.div Format.binary64 u u') := by
  cases h' with
  | zero s' => exact absurd rfl hne
  | finite negative' h' hq' =>
    cases h with
    | zero s =>
      rw [zero_div]
      exact isRounding_zero _
    | finite negative h hq => exact isRounding_div negative negative' h.positive h'.positive

/-! ### What is rounded stays within bounds -/

/-- A double is finite and at most a power of two. -/
def Within (k : Nat) (x : Float) : Prop := ∃ v, Stands x v ∧ |v| ≤ 2 ^ k

theorem Within.isFinite (h : Within k x) : isFinite x = true :=
  isFinite_iff_stands.mpr ⟨h.choose, h.choose_spec.1⟩

theorem Within.mono (h : Within j x) (hle : j ≤ k) : Within k x := by
  obtain ⟨v, hv, hbound⟩ := h
  exact ⟨v, hv, hbound.trans (pow_le_pow_right₀ one_le_two hle)⟩

/-- What is within a finite double is finite, and not negative if its sign is not. -/
theorem Inside.stands {negative : Bool} {m : Nat} {q : Int} (h : Inside negative m q u)
    (hc : Canonical m q) (hq : q ≤ 971) :
    ∃ w, Stands (.ofModel (.pack u)) w ∧ |w| ≤ m * 2 ^ q ∧ (negative = false → 0 ≤ w) := by
  cases h with
  | zero s => exact ⟨0, (Means.zero s).stands_pack, by rw [abs_zero]; positivity, fun _ => le_rfl⟩
  | @finite m' q' h hplace =>
    refine ⟨_, (Means.finite negative h ((h.exponent_le hc hplace).trans hq)).stands_pack, ?_, ?_⟩
    · rw [abs_signedValue]
      exact h.value_le hc hplace
    · rintro rfl
      exact mul_nonneg (Nat.cast_nonneg m') (by positivity)

/-- A power of two is a double. -/
theorem canonical_power (k : Nat) : Canonical (2 ^ 52) ((k : Int) - 52) :=
  ⟨by norm_num, by norm_num, .inl le_rfl, by omega⟩

theorem power_eq_two_pow (k : Nat) : ((2 ^ 52 : Nat) : ℚ) * 2 ^ ((k : Int) - 52) = 2 ^ k := by
  rw [zpow_sub₀ two_ne_zero, zpow_natCast]
  push_cast
  field_simp

theorem IsRounding.within (h : IsRounding v u) (hv : |v| ≤ 2 ^ k) (hk : k ≤ 1023) :
    Within k (.ofModel (.pack u)) := by
  have hinside := h.inside (canonical_power k) (hv.trans_eq (power_eq_two_pow k).symm)
  obtain ⟨w, hw, hbound, -⟩ := hinside.stands (canonical_power k) (by omega)
  exact ⟨w, hw, hbound.trans_eq (power_eq_two_pow k)⟩

/-- **What is beyond a power of two by no more than half a unit of the last place is rounded back.** -/
theorem IsRounding.within_of_near (h : IsRounding v u) (hv : |v| ≤ 2 ^ (j + 53) + 2 ^ j)
    (hj : j ≤ 970) : Within (j + 53) (.ofModel (.pack u)) := by
  rcases le_or_gt |v| (2 ^ (j + 53)) with hle | hgt
  · exact h.within hle (by omega)
  have hpower := power_eq_two_pow (j + 53)
  have hhalf : (2 : ℚ) ^ (((j + 53 : Nat) : Int) - 52) = 2 * 2 ^ j := by
    have hexponent : ((j + 53 : Nat) : Int) - 52 = ((j + 1 : Nat) : Int) := by omega
    rw [hexponent, zpow_natCast, pow_succ, mul_comm]
  have hcontains : (Interval.around (2 ^ 52) (((j + 53 : Nat) : Int) - 52)).Contains
      (((j + 53 : Nat) : Int) - 52) |v| := by
    -- half a unit is `2 ^ j`, and a tie goes to the power, whose mantissa is even
    obtain ⟨⟨hlow, -⟩, -⟩ :=
      contains_self (q := ((j + 53 : Nat) : Int) - 52) (canonical_power 0).positive
    rw [hpower] at hlow
    refine ⟨⟨hlow.trans hgt.le, ?_⟩, fun hopen => ?_⟩
    · rw [Interval.high_around, add_mul, hpower, hhalf]
      linarith
    · simp [Interval.around] at hopen
  have heq := h.eq (canonical_power (j + 53)) hcontains
  rw [heq]
  refine ⟨_, (Means.finite _ (canonical_power (j + 53)) (by omega)).stands_pack, ?_⟩
  rw [abs_signedValue, hpower]

/-- What is rounded from a number that is not negative is not negative, if it is finite. -/
theorem IsRounding.nonneg (h : IsRounding v u) (hv : 0 ≤ v)
    (hfinite : isFinite (.ofModel (.pack u)) = true) : ∃ w, Stands (.ofModel (.pack u)) w ∧ 0 ≤ w := by
  obtain ⟨k, hk⟩ := pow_unbounded_of_one_lt |v| one_lt_two
  have hinside := h.inside (canonical_power k) (hk.le.trans_eq (power_eq_two_pow k).symm)
  rw [decide_eq_false hv.not_gt] at hinside
  cases hinside with
  | zero s => exact ⟨0, (Means.zero s).stands_pack, le_rfl⟩
  | @finite m' q' h' hplace =>
    by_cases hq : q' ≤ 971
    · refine ⟨_, (Means.finite false h' hq).stands_pack, ?_⟩
      exact mul_nonneg (Nat.cast_nonneg m') (by positivity)
    · have hinfinite : isFinite infinity = false := by decide +kernel
      have hoverflow := pack_overflow h'.positive (by omega : 972 ≤ q')
      rw [signOf, if_neg Bool.false_ne_true, hoverflow, hinfinite] at hfinite
      cases hfinite

/-! ## 3. Operations on doubles -/

/-- **Adding to a sum**: another term does not lead out of bounds that are `2 ^ 53` times its own. -/
theorem Within.add (hx : Within (j + 53) x) (hy : Within j y) (hj : j ≤ 970) :
    Within (j + 53) (x + y) := by
  obtain ⟨v, hv, hvle⟩ := hx
  obtain ⟨w, hw, hwle⟩ := hy
  exact (Means.add hv hw).within_of_near ((abs_add_le v w).trans (add_le_add hvle hwle)) hj

theorem Within.sub (hx : Within k x) (hy : Within k y) (hk : k ≤ 1022) : Within (k + 1) (x - y) := by
  obtain ⟨v, hv, hvle⟩ := hx
  obtain ⟨w, hw, hwle⟩ := hy
  refine (Means.sub hv hw).within ?_ (by omega)
  calc |v - w| ≤ |v| + |w| := abs_sub v w
    _ ≤ 2 ^ k + 2 ^ k := add_le_add hvle hwle
    _ = 2 ^ (k + 1) := by rw [pow_succ, mul_two]

theorem Within.mul (hx : Within k x) (hy : Within k y) (hk : k ≤ 511) : Within (k + k) (x * y) := by
  obtain ⟨v, hv, hvle⟩ := hx
  obtain ⟨w, hw, hwle⟩ := hy
  refine (Means.mul hv hw).within ?_ (by omega)
  rw [abs_mul, pow_add]
  exact mul_le_mul hvle hwle (abs_nonneg w) (by positivity)

theorem Means.div_le (h : Means u v) (h' : Means u' w) (hw : 1 ≤ w) :
    ∃ r, Stands (.ofModel (.pack (UnpackedFloat.div Format.binary64 u u'))) r ∧ |r| ≤ |v| ∧
      (0 ≤ v → 0 ≤ r) := by
  have hpos : 0 < w := one_pos.trans_le hw
  have hround := h.div h' hpos.ne'
  cases h with
  | zero s =>
    cases h' with
    | zero s' => exact absurd hpos (lt_irrefl 0)
    | finite negative' h' hq' => exact ⟨0, (Means.zero _).stands_pack, le_rfl, fun _ => le_rfl⟩
  | @finite negative m q h hq =>
    rw [abs_signedValue]
    have hle : |signedValue negative m q / w| ≤ m * 2 ^ q := by
      rw [abs_div, abs_signedValue, abs_of_pos hpos]
      exact div_le_self (by positivity) hw
    obtain ⟨r, hr, hbound, hsign⟩ := (hround.inside h hle).stands h hq
    exact ⟨r, hr, hbound, fun hv => hsign (decide_eq_false (div_nonneg hv hpos.le).not_gt)⟩

/-- **Dividing by what is not below one** gives nothing larger. -/
theorem Stands.div (hx : Stands x v) (hy : Stands y w) (hw : 1 ≤ w) :
    ∃ r, Stands (x / y) r ∧ |r| ≤ |v| ∧ (0 ≤ v → 0 ≤ r) := Means.div_le hx hy hw

/-! ### Roots -/

/-- How a rest compares with a half is told by a number of quarters. -/
theorem accuracy_eq (accuracy : Accuracy) : ∃ quarters < 4, accuracy = accuracyOfFraction quarters 4 := by
  cases accuracy with
  | exact => exact ⟨0, by norm_num, rfl⟩
  | inexact o =>
    cases o with
    | lt => exact ⟨1, by norm_num, rfl⟩
    | eq => exact ⟨2, by norm_num, rfl⟩
    | gt => exact ⟨3, by norm_num, rfl⟩

/-- The whole part of a root has enough bits to round from, or the least exponent. -/
theorem root_exponent {m : Nat} {e target : Int} (hm : 0 < m)
    (htarget : target = min (e / 2) (Format.binary64.targetExponent ((totalExponent m e + 1) / 2))) :
    target ≤ Format.binary64.targetExponent
      (totalExponent (Nat.sqrt (m <<< (e - 2 * target).toNat)) target) := by
  rw [targetExponent_eq, totalExponent] at htarget
  rw [targetExponent_eq, totalExponent]
  by_cases hleast : target ≤ -1074
  · omega
  have hlong : m.log2 + (e - 2 * target).toNat ≤ (m <<< (e - 2 * target).toNat).log2 :=
    le_log2_shiftLeft hm _
  have hpos : m <<< (e - 2 * target).toNat ≠ 0 := by
    rw [Nat.shiftLeft_eq]
    exact (Nat.mul_pos hm (Nat.two_pow_pos _)).ne'
  -- the radicand has been given 105 bits at least, so the root has 53
  have hsquare : 2 ^ 52 * 2 ^ 52 ≤ m <<< (e - 2 * target).toNat := by
    rw [← pow_add]
    exact (Nat.le_log2 hpos).mp (by omega)
  have hroot : 2 ^ 52 ≤ Nat.sqrt (m <<< (e - 2 * target).toNat) := Nat.le_sqrt.mpr hsquare
  have hlog := (Nat.le_log2 (Nat.two_pow_pos 52 |>.trans_le hroot).ne').mpr hroot
  omega

/-- The root of a double has half as many places before the point. -/
theorem root_le {m : Nat} {e target : Int} (hc : Canonical m e) (he : e ≤ 971) (htarget : 2 * target ≤ e) :
    (Nat.sqrt (m <<< (e - 2 * target).toNat) + 1 : ℚ) * 2 ^ target ≤ 2 ^ 513 := by
  generalize hroot : Nat.sqrt (m <<< (e - 2 * target).toNat) = root
  have hsquare : (root : ℚ) * root ≤ m * 2 ^ (e - 2 * target) := by
    have hle := Nat.sqrt_le (m <<< (e - 2 * target).toNat)
    rw [hroot, Nat.shiftLeft_eq] at hle
    have hexponent : e - 2 * target = ((e - 2 * target).toNat : Int) := by omega
    rw [hexponent, zpow_natCast]
    exact_mod_cast hle
  have hupper : (m : ℚ) ≤ 2 ^ 53 := by exact_mod_cast hc.upper.le
  have hpower : (2 : ℚ) ^ e = 2 ^ (e - 2 * target) * (2 ^ target) ^ 2 := by
    rw [← zpow_natCast, ← zpow_mul, ← zpow_add₀ two_ne_zero]
    congr 1
    omega
  have hscaled : ((root : ℚ) * 2 ^ target) ^ 2 ≤ (2 ^ 512) ^ 2 := calc
    ((root : ℚ) * 2 ^ target) ^ 2 = root * root * ((2 : ℚ) ^ target) ^ 2 := by ring
    _ ≤ m * 2 ^ (e - 2 * target) * ((2 : ℚ) ^ target) ^ 2 :=
      mul_le_mul_of_nonneg_right hsquare (by positivity)
    _ = m * 2 ^ e := by rw [hpower, mul_assoc]
    _ ≤ 2 ^ 53 * 2 ^ (971 : Int) :=
      mul_le_mul hupper (zpow_le_zpow_right₀ one_le_two he) (by positivity) (by positivity)
    _ = (2 ^ 512) ^ 2 := by rw [zpow_ofNat, ← pow_add, ← pow_mul]
  have hroot' : (root : ℚ) * 2 ^ target ≤ 2 ^ 512 := le_of_sq_le_sq hscaled (by positivity)
  have hunit : (2 : ℚ) ^ target ≤ 2 ^ (512 : Int) := zpow_le_zpow_right₀ one_le_two (by omega)
  have hunit' : (2 : ℚ) ^ target ≤ 2 ^ 512 := by exact_mod_cast hunit
  calc (root + 1 : ℚ) * 2 ^ target = root * 2 ^ target + 2 ^ target := by ring
    _ ≤ 2 ^ 512 + 2 ^ 512 := add_le_add hroot' hunit'
    _ = 2 ^ 513 := by rw [pow_succ (2 : ℚ) 512, mul_two]

theorem Means.isFinite_sqrt (h : Means u v) (hv : 0 ≤ v) :
    isFinite (.ofModel (.pack (UnpackedFloat.sqrt Format.binary64 u))) = true := by
  cases h with
  | zero s => exact isFinite_iff_stands.mpr ⟨0, (Means.zero s).stands_pack⟩
  | @finite negative m q h hq =>
    cases negative with
    | true => exact absurd ((signedValue_lt_zero_iff true h.positive q).mpr rfl) hv.not_gt
    | false =>
      generalize htarget :
        min (q / 2) (Format.binary64.targetExponent ((totalExponent m q + 1) / 2)) = target
      generalize hroot : Nat.sqrt (m <<< (q - 2 * target).toNat) = root
      obtain ⟨accuracy, hsqrt⟩ : ∃ accuracy, UnpackedFloat.sqrt Format.binary64
          (.finite (signOf false) m q h.positive) =
            roundWithAccuracy Format.binary64 .positive root target accuracy := by
        subst hroot htarget
        exact ⟨_, rfl⟩
      -- which number of quarters does not matter: the root is below `root + 1` units
      obtain ⟨quarters, hfew, rfl⟩ := accuracy_eq accuracy
      have hfew' : (quarters : ℚ) / 4 ≤ 1 := by
        rw [div_le_one four_pos]
        exact_mod_cast hfew.le
      have hvalue : (0 : ℚ) ≤ (root + quarters / 4) * 2 ^ target := by positivity
      have hround : IsRounding ((root + quarters / 4) * 2 ^ target) (roundWithAccuracy Format.binary64
          .positive root target (accuracyOfFraction quarters 4)) := by
        refine isRounding_roundWithAccuracy ?_ ?_ (hroot ▸ root_exponent h.positive htarget.symm)
        · rw [decide_eq_false hvalue.not_gt]
          rfl
        · rw [abs_of_nonneg hvalue, mul_div_cancel_right₀ _ (by positivity)]
          exact represents_fraction root hfew
      rw [hsqrt]
      refine (hround.within (k := 513) ?_ (by omega)).isFinite
      have hbound := root_le h hq (by omega : 2 * target ≤ q)
      rw [hroot] at hbound
      rw [abs_of_nonneg hvalue]
      exact (mul_le_mul_of_nonneg_right (by linarith) (by positivity)).trans hbound

/-- **The root of what is not negative is finite.** -/
theorem Stands.isFinite_sqrt (hx : Stands x v) (hv : 0 ≤ v) : isFinite x.sqrt = true :=
  Means.isFinite_sqrt hx hv

/-! ## 4. Sums, means and deviations -/

/-- **Doubles of at most `2 ^ j` do not add up to more than `2 ^ (j + 53)`**, however many there are. -/
theorem within_total (h : ∀ x ∈ xs, Within j x) (hj : j ≤ 970) : Within (j + 53) (total xs) := by
  suffices hfold : ∀ a, Within (j + 53) a → Within (j + 53) (xs.foldl (· + ·) a) from
    hfold 0.0 ⟨0, .zero .positive, by rw [abs_zero]; positivity⟩
  induction xs with
  | nil => exact fun a ha => ha
  | cons x xs ih =>
    obtain ⟨hx, hxs⟩ := List.forall_mem_cons.mp h
    exact fun a ha => ih hxs _ (ha.add hx hj)

/-- What is not negative adds up to something that is not negative, if the sum is finite. -/
theorem nonneg_total (h : ∀ x ∈ xs, ∃ v, Stands x v ∧ 0 ≤ v) (hfinite : isFinite (total xs) = true) :
    ∃ v, Stands (total xs) v ∧ 0 ≤ v := by
  suffices hfold : ∀ a, (∃ v, Stands a v ∧ 0 ≤ v) → isFinite (xs.foldl (· + ·) a) = true →
      ∃ v, Stands (xs.foldl (· + ·) a) v ∧ 0 ≤ v from
    hfold 0.0 ⟨0, .zero .positive, le_rfl⟩ hfinite
  clear hfinite
  induction xs with
  | nil => exact fun a ha _ => ha
  | cons x xs ih =>
    obtain ⟨⟨w, hw, hw0⟩, hxs⟩ := List.forall_mem_cons.mp h
    rintro a ⟨v, hv, hv0⟩ hsum
    have hrest : isFinite (xs.foldl (· + ·) (a + x)) = true := hsum
    exact ih hxs _ ((Means.add hv hw).nonneg (add_nonneg hv0 hw0) (isFinite_of_foldl hrest).1) hrest

/-- A whole number of at most 53 bits stands for itself as a double. -/
theorem stands_toFloat (h : n < 2 ^ 53) : Stands n.toFloat n := by
  rcases Nat.eq_zero_or_pos n with rfl | hpos
  · exact .zero .positive
  obtain ⟨hc, -, hvalue⟩ := canonical_shiftLeft hpos h
  have hlog : n.log2 < 53 := (Nat.log2_lt hpos.ne').mpr h
  have hself := contains_self (q := (n.log2 : Int) - 52) hc.positive
  rw [hvalue] at hself
  have hfloat : n.toFloat = pack false hc := ofScientific_whole hpos hc (by omega) hself
  rw [hfloat, Stands, unpack_toModel false hc (by omega), ← hvalue]
  exact .finite false hc (by omega)

theorem within_toFloat (h : n < 2 ^ 53) : Within 53 n.toFloat := by
  refine ⟨n, stands_toFloat h, ?_⟩
  rw [Nat.abs_cast]
  exact_mod_cast h.le

section Lists

variable (hne : xs ≠ []) (hlength : xs.length < 2 ^ 53)

include hne hlength

/-- A mean is no larger than the sum. -/
theorem stands_mean (h : Stands (total xs) v) :
    ∃ r, Stands (mean xs) r ∧ |r| ≤ |v| ∧ (0 ≤ v → 0 ≤ r) := by
  refine h.div (stands_toFloat hlength) ?_
  exact_mod_cast List.length_pos_iff.mpr hne

/-- **A mean is finite exactly if the sum is.** -/
theorem isFinite_mean_iff : isFinite (mean xs) = true ↔ isFinite (total xs) = true := by
  constructor
  · exact isFinite_of_div
  · intro h
    obtain ⟨v, hv⟩ := isFinite_iff_stands.mp h
    obtain ⟨r, hr, -⟩ := stands_mean hne hlength hv
    exact isFinite_iff_stands.mpr ⟨r, hr⟩

theorem within_mean (h : ∀ x ∈ xs, Within j x) (hj : j ≤ 970) : Within (j + 53) (mean xs) := by
  obtain ⟨v, hv, hbound⟩ := within_total h hj
  obtain ⟨r, hr, hle, -⟩ := stands_mean hne hlength hv
  exact ⟨r, hr, hle.trans hbound⟩

end Lists

/-- The squared distances of some doubles to their mean. -/
def squares (xs : List Float) : List Float := xs.map fun x => (x - mean xs) * (x - mean xs)

/-- What is multiplied by itself does not become negative, if the product is finite. -/
theorem nonneg_of_mem_squares {x : Float} (hmem : x ∈ squares xs) (hfinite : isFinite x = true) :
    ∃ v, Stands x v ∧ 0 ≤ v := by
  obtain ⟨y, -, rfl⟩ := List.mem_map.mp hmem
  obtain ⟨v, hv⟩ := isFinite_iff_stands.mp (isFinite_of_mul hfinite)
  exact (Means.mul hv hv).nonneg (mul_self_nonneg v) hfinite

section Deviation

variable (hne : xs ≠ []) (hlength : xs.length < 2 ^ 53)

include hne hlength

/-- **A deviation is finite exactly if the sum of the squared distances is.** -/
theorem isFinite_deviation_iff :
    isFinite (variance xs).sqrt = true ↔ isFinite (total (squares xs)) = true := by
  have hne' : squares xs ≠ [] := fun h => hne (List.map_eq_nil_iff.mp h)
  have hlength' : (squares xs).length < 2 ^ 53 := by rwa [squares, List.length_map]
  constructor
  · intro h
    exact (isFinite_mean_iff hne' hlength').mp (isFinite_of_sqrt h)
  · intro h
    -- a root needs more than a finite radicand: the squares are not negative
    obtain ⟨v, hv, hv0⟩ :=
      nonneg_total (fun x hx => nonneg_of_mem_squares hx ((isFinite_of_foldl h).2 x hx)) h
    obtain ⟨r, hr, -, hr0⟩ := stands_mean hne' hlength' hv
    exact hr.isFinite_sqrt (hr0 hv0)

/-- **Doubles of at most `2 ^ 431` have squared distances with a finite sum.** -/
theorem isFinite_total_squares (h : ∀ x ∈ xs, Within j x) (hj : j ≤ 431) :
    isFinite (total (squares xs)) = true := by
  have hmean := within_mean hne hlength h (by omega)
  refine (within_total (j := j + 54 + (j + 54)) ?_ (by omega)).isFinite
  intro x hx
  obtain ⟨y, hy, rfl⟩ := List.mem_map.mp hx
  have hdistance := ((h y hy).mono (by omega : j ≤ j + 53)).sub hmean (by omega)
  exact hdistance.mul hdistance (by omega)

end Deviation

end Number
end FormulaEvolution
