/-
# Draws from a span around zero

A double is drawn from the span between `-r` and `r` by adding a share of its width to `-r`.  If the width
is finite the double lies in the span, and if it is not the double does not (`spread_within_iff`).  The width
of a finite `r` is not finite if twice `r` is beyond the largest double.

Within the finite ones the width is exact, its share is rounded to no more than the width, and the sum to
nothing farther out than `r`.  Nothing else is needed of the source than that its doubles are between zero
and one (`RandomSource.WithinUnit`), as those of the Mersenne twister are.
-/
import FormulaEvolution.Proofs.Number.Bounds
import FormulaEvolution.Random.Twister

namespace FormulaEvolution
namespace Number

open Float.Model Float.Model.UnpackedFloat

/-! ## 1. Doubles that are not negative -/

section Doubles

variable {m m' : Nat} {q q' : Int}

theorem lies_pack (negative : Bool) (h : Canonical m q) (hq : q ≤ 971) :
    Lies (pack negative h).toModel.unpack (signedPlace negative (place m q)) := by
  rw [unpack_toModel negative h hq]
  exact .finite negative h hq

theorem unpack_zero (negative : Bool) :
    (if negative then -0.0 else 0.0 : Float).toModel.unpack = .zero (signOf negative) := by
  cases negative <;> rfl

/-- A double that is not negative: a zero, a magnitude, or infinity. -/
inductive Nonnegative : Float → Prop
  | zero (negative : Bool) : Nonnegative (if negative then -0.0 else 0.0)
  | finite {m : Nat} {q : Int} (h : Canonical m q) : q ≤ 971 → Nonnegative (pack false h)
  | infinite : Nonnegative infinity

/-- The infinities lie outside of what is between zero and one, and what is no number lies nowhere. -/
theorem unit_apart : (¬ 0.0 ≤ notANumber ∧ ¬ notANumber ≤ notANumber) ∧ ¬ 0.0 ≤ -infinity ∧ ¬ infinity ≤ 1.0 := by
  decide +kernel

theorem nonnegative_of_le {x : Float} (hx : 0.0 ≤ x) : Nonnegative x := by
  match hdecode : decode x with
  | .nan => exact absurd (eq_notANumber hdecode ▸ hx) unit_apart.1.1
  | .infinite negative =>
    rw [eq_infinity hdecode] at hx ⊢
    cases negative with
    | true => exact absurd hx unit_apart.2.1
    | false => exact .infinite
  | .finite negative m q =>
    rcases Nat.eq_zero_or_pos m with rfl | hm
    · rw [eq_zero_of_decode hdecode]
      exact .zero negative
    · obtain ⟨h, hq, rfl⟩ := decode_eq_pack hdecode hm
      cases negative with
      | true =>
        have hpos := (h.place_bounds hq).1
        have hzero : Lies (0.0 : Float).toModel.unpack 0 := .zero .positive
        have hle := (le_iff_lies hzero (lies_pack true h hq)).mp hx
        rw [signedPlace_true] at hle
        omega
      | false => exact .finite h hq

/-- What is not farther out is not larger. -/
theorem Canonical.value_le (h : Canonical m q) (h' : Canonical m' q')
    (hplace : place m q ≤ place m' q') : (m : ℚ) * 2 ^ q ≤ m' * 2 ^ q' := by
  rcases (place_le_iff h h').mp hplace with hlt | ⟨rfl, hle⟩
  · -- A larger exponent needs all bits, and a mantissa has no more than those.
    have hlower : 2 ^ 52 ≤ m' := h'.lower.resolve_right (by have := h.least; omega)
    have hlower' : (2 : ℚ) ^ 52 ≤ m' := by exact_mod_cast hlower
    have hupper : (m : ℚ) ≤ 2 ^ 53 := by exact_mod_cast h.upper.le
    calc (m : ℚ) * 2 ^ q ≤ 2 ^ 53 * 2 ^ q := mul_le_mul_of_nonneg_right hupper (by positivity)
      _ = 2 ^ 52 * 2 ^ (q + 1) := by rw [zpow_add₀ (by norm_num)]; ring
      _ ≤ 2 ^ 52 * 2 ^ q' :=
        mul_le_mul_of_nonneg_left (zpow_le_zpow_right₀ (by norm_num) (by omega)) (by positivity)
      _ ≤ m' * 2 ^ q' := mul_le_mul_of_nonneg_right hlower' (by positivity)
  · have hle' : (m : ℚ) ≤ m' := by exact_mod_cast hle
    exact mul_le_mul_of_nonneg_right hle' (by positivity)

/-- One, taken apart. -/
theorem canonical_one : Canonical (2 ^ 52) (-52) := ⟨by norm_num, by norm_num, .inl le_rfl, by norm_num⟩

theorem lies_one : Lies (1.0 : Float).toModel.unpack (place (2 ^ 52) (-52)) := by
  have hone : isNaN 1.0 = false ∧ rank 1.0 = place (2 ^ 52) (-52) := by decide +kernel
  exact hone.2 ▸ lies_rank hone.1

/-- A double between zero and one: a zero, or a magnitude of at most one. -/
theorem unit_cases {u : Float} (hlow : 0.0 ≤ u) (hhigh : u ≤ 1.0) :
    (∃ negative : Bool, u = if negative then -0.0 else 0.0) ∨
      ∃ (m : Nat) (q : Int) (h : Canonical m q), q ≤ 971 ∧ u = pack false h ∧ (m : ℚ) * 2 ^ q ≤ 1 := by
  cases nonnegative_of_le hlow with
  | zero negative => exact .inl ⟨negative, rfl⟩
  | @finite m q h hq =>
    have hplace := (le_iff_lies (lies_pack false h hq) lies_one).mp hhigh
    have hvalue := h.value_le canonical_one hplace
    refine .inr ⟨m, q, h, hq, rfl, hvalue.trans_eq ?_⟩
    norm_num
  | infinite => exact absurd hhigh unit_apart.2.2

end Doubles

/-! ## 2. The width of a span -/

section Width

variable {m : Nat} {q : Int}

/-- The double of a double, with one bit more or the next exponent. -/
theorem Canonical.double (h : Canonical m q) : ∃ (m' : Nat) (q' : Int), Canonical m' q' ∧
    (m' : ℚ) * 2 ^ q' = 2 * (m * 2 ^ q) ∧ q' ≤ q + 1 := by
  have hleast := h.least
  have hpositive := h.positive
  rcases Nat.lt_or_ge m (2 ^ 52) with hsmall | hlarge
  · refine ⟨2 * m, q, ⟨by omega, by omega, .inr (h.lower.resolve_left (by omega)), hleast⟩, ?_, by omega⟩
    push_cast
    ring
  · refine ⟨m, q + 1, ⟨hpositive, h.upper, .inl hlarge, by omega⟩, ?_, le_rfl⟩
    rw [zpow_add₀ (by norm_num)]
    ring

/-- A magnitude less its negative is twice the magnitude. -/
theorem sub_neg {m' : Nat} {q' : Int} (h : 0 < m) (h' : Canonical m' q')
    (hvalue : (m' : ℚ) * 2 ^ q' = 2 * (m * 2 ^ q)) :
    UnpackedFloat.sub Format.binary64 (.finite .positive m q h) (.finite .negative m q h) =
      .finite .positive m' q' h'.positive := by
  have hshift : (q - min q q).toNat = 0 := by omega
  have hsum : UnpackedFloat.sub Format.binary64 (.finite .positive m q h) (.finite .negative m q h) =
      UnpackedFloat.normalize Format.binary64
        ((m <<< (q - min q q).toNat : Nat) - -((m <<< (q - min q q).toNat : Nat) : Int)) (min q q)
        .positive := rfl
  have hround : UnpackedFloat.normalize Format.binary64 ((m : Int) - -(m : Int)) q .positive =
      UnpackedFloat.round Format.binary64 .positive (2 * m) q := by
    have hpos : (0 : Int) < (m : Int) - -(m : Int) := by omega
    have htwice : ((m : Int) - -(m : Int)).toNat = 2 * m := by omega
    simp only [UnpackedFloat.normalize, Int.compare_eq_gt.mpr hpos, htwice]
  rw [hsum, hshift, Nat.shiftLeft_zero, min_self, hround]
  refine round_exact .positive (by omega) h' (hvalue.trans ?_)
  push_cast
  ring

/-- A magnitude with an exponent that is too large is packed as infinity. -/
theorem pack_overflow (h : 0 < m) (hq : 972 ≤ q) :
    Float.ofModel (.pack (.finite .positive m q h)) = infinity := by
  have hlarge : 2 ^ 11 ≤ (q + 1023 + 52).toNat + 1 := by omega
  have hpack : Float.Model.UnpackedFloat.pack Format.binary64 (.finite .positive m q h) =
      packedInfinity Format.binary64 .positive := if_pos hlarge
  refine eq_of_toBits ?_
  have hbits : (Float.ofModel (.pack (.finite .positive m q h))).toBits.toNat =
      (Float.Model.UnpackedFloat.pack Format.binary64 (.finite .positive m q h)).toNat := rfl
  rw [hbits, hpack]
  decide +kernel

/-- A packed magnitude is finite. -/
theorem isFinite_pack (h : Canonical m q) (hq : q ≤ 971) : isFinite (pack false h) = true := by
  have hlies := lies_pack false h hq
  obtain ⟨hpos, hlt⟩ := h.place_bounds hq
  unfold isFinite
  match hdecode : decode (pack false h) with
  | .finite .. => rfl
  | .nan =>
    have hself := (le_iff_lies hlies hlies).mpr le_rfl
    rw [eq_notANumber hdecode] at hself
    exact absurd hself unit_apart.1.2
  | .infinite negative =>
    have hnumber : isNaN (pack false h) = false := by simp [isNaN, hdecode]
    have hrank := lies_rank hnumber
    rw [rank_infinite hdecode] at hrank
    have hself := (le_iff_lies hlies hlies).mpr le_rfl
    have hle := (le_iff_lies hlies hrank).mp hself
    have hge := (le_iff_lies hrank hlies).mp hself
    rw [signedPlace_false] at hle hge
    cases negative with
    | true =>
      rw [signedPlace_true] at hle
      omega
    | false =>
      rw [signedPlace_false] at hge
      omega

end Width

/-! ## 3. A share of the width -/

/-- What is drawn between `-r` and `r` with a share `u` of the width. -/
def spread (r u : Float) : Float := -r + (r - -r) * u

section Share

variable {m : Nat} {q : Int} {u : Float}

theorem unpack_add (x y : Float) : (x + y).toModel.unpack = (Float.ofModel (.pack
    (UnpackedFloat.add Format.binary64 x.toModel.unpack y.toModel.unpack))).toModel.unpack := rfl

theorem unpack_mul (x y : Float) : (x * y).toModel.unpack = (Float.ofModel (.pack
    (UnpackedFloat.mul Format.binary64 x.toModel.unpack y.toModel.unpack))).toModel.unpack := rfl

theorem unpack_pack_zero (s : Sign) : (Float.ofModel (.pack (.zero s))).toModel.unpack = .zero s := by
  cases s <;> rfl

theorem unpack_pack_infinity (s : Sign) :
    (Float.ofModel (.pack (.infinity s))).toModel.unpack = .infinity s := by
  cases s <;> rfl

theorem unpack_pack_notANumber :
    (Float.ofModel (.pack .notANumber)).toModel.unpack = .notANumber := rfl

/-- A share of a magnitude is a zero, or a magnitude that is not larger. -/
theorem unpack_mul_unit (h : Canonical m q) (hq : q ≤ 971) (hlow : 0.0 ≤ u) (hhigh : u ≤ 1.0) :
    (∃ s, (pack false h * u).toModel.unpack = .zero s) ∨
      ∃ (m' : Nat) (q' : Int) (h' : Canonical m' q'), place m' q' ≤ place m q ∧
        (pack false h * u).toModel.unpack = .finite .positive m' q' h'.positive := by
  rcases unit_cases hlow hhigh with ⟨negative, rfl⟩ | ⟨k, l, hk, hl, rfl, hone⟩
  · left
    have hmul : UnpackedFloat.mul Format.binary64 (.finite (signOf false) m q h.positive)
        (.zero (signOf negative)) = .zero (signOf false * signOf negative) := rfl
    rw [unpack_mul, unpack_toModel false h hq, unpack_zero, hmul]
    exact ⟨_, unpack_pack_zero _⟩
  · have hvalue : (m * 2 ^ q) * (k * 2 ^ l) ≤ (m * 2 ^ q : ℚ) :=
      mul_le_of_le_one_right (by positivity) hone
    have hinside := mul_inside h hk h hvalue
    have hunpack : (pack false h * pack false hk).toModel.unpack =
        UnpackedFloat.mul Format.binary64 (.finite .positive m q h.positive)
          (.finite .positive k l hk.positive) := by
      rw [unpack_mul, unpack_toModel false h hq, unpack_toModel false hk hl]
      exact hinside.unpack_pack h hq
    rw [hunpack]
    generalize UnpackedFloat.mul Format.binary64 (.finite .positive m q h.positive)
      (.finite .positive k l hk.positive) = product at hinside
    cases hinside with
    | zero s => exact .inl ⟨s, rfl⟩
    | finite h' hplace => exact .inr ⟨_, _, h', hplace, rfl⟩

/-- **A magnitude and a share of twice the magnitude**: the share is too small to lead beyond it. -/
theorem within_of_share {m' : Nat} {q' : Int} (h : Canonical m q) (hq : q ≤ 971)
    (h' : Canonical m' q') (hq' : q' ≤ 971) (hvalue : (m' : ℚ) * 2 ^ q' = 2 * (m * 2 ^ q))
    (hlow : 0.0 ≤ u) (hhigh : u ≤ 1.0) :
    pack true h ≤ pack true h + pack false h' * u ∧ pack true h + pack false h' * u ≤ pack false h := by
  have hpos := (h.place_bounds hq).1
  suffices hsum : ∃ p, Lies (pack true h + pack false h' * u).toModel.unpack p ∧
      -place m q ≤ p ∧ p ≤ place m q by
    obtain ⟨p, hlies, hleft, hright⟩ := hsum
    exact ⟨(le_iff_lies (lies_pack true h hq) hlies).mpr hleft,
      (le_iff_lies hlies (lies_pack false h hq)).mpr hright⟩
  rw [unpack_add, unpack_toModel true h hq]
  rcases unpack_mul_unit h' hq' hlow hhigh with ⟨s, hzero⟩ | ⟨k, l, hk, hplace, hshare⟩
  · -- Nothing is added.
    rw [hzero]
    have hlies := lies_pack true h hq
    rw [signedPlace_true] at hlies
    exact ⟨-place m q, hlies, le_rfl, by omega⟩
  · have hsmall : (k : ℚ) * 2 ^ l ≤ 2 * (m * 2 ^ q) := (hk.value_le h' hplace).trans_eq hvalue
    have hsmall' : (0 : ℚ) ≤ k * 2 ^ l := by positivity
    have hle : |signedValue true m q + signedValue false k l| ≤ (m * 2 ^ q : ℚ) := by
      simp only [signedValue, if_true, Bool.false_eq_true, if_false]
      rw [abs_le]
      constructor
      · linarith
      · linarith
    obtain ⟨negative, hinside⟩ := add_inside true false h.positive hk.positive h hle
    obtain ⟨p, hlies, hnonneg, hbound⟩ := hinside.lies h hq
    rw [hshare]
    refine ⟨signedPlace negative p, ?_, ?_⟩
    · have hunpack := hinside.unpack_pack h hq
      rw [← hunpack] at hlies
      exact hlies
    · cases negative with
      | true =>
        rw [signedPlace_true]
        constructor
        · omega
        · omega
      | false =>
        rw [signedPlace_false]
        constructor
        · omega
        · omega

end Share

/-! ## 4. Widths that are not finite -/

section Overflow

variable {r u x y : Float} {a : Int}

/-- What is no number is not within anything. -/
theorem not_le_notANumber (hy : y.toModel.unpack = .notANumber) : ¬ x ≤ y := by
  have hle : UnpackedFloat.le x.toModel.unpack .notANumber = false := by
    cases x.toModel.unpack <;> rfl
  rw [le_iff_unpack, hy, hle]
  exact Bool.false_ne_true

/-- A share of infinity is infinite, or no number. -/
theorem unpack_infinity_mul (hlow : 0.0 ≤ u) (hhigh : u ≤ 1.0) :
    (infinity * u).toModel.unpack = .infinity .positive ∨ (infinity * u).toModel.unpack = .notANumber := by
  have hinfinity : infinity.toModel.unpack = .infinity .positive := rfl
  rcases unit_cases hlow hhigh with ⟨negative, rfl⟩ | ⟨k, l, hk, hl, rfl, -⟩
  · right
    have hmul : UnpackedFloat.mul Format.binary64 (.infinity .positive) (.zero (signOf negative)) =
        .notANumber := rfl
    rw [unpack_mul, hinfinity, unpack_zero, hmul, unpack_pack_notANumber]
  · left
    have hmul : UnpackedFloat.mul Format.binary64 (.infinity .positive)
        (.finite (signOf false) k l hk.positive) = .infinity .positive := rfl
    rw [unpack_mul, hinfinity, unpack_toModel false hk hl, hmul, unpack_pack_infinity]

/-- If the width is infinite, what is drawn is not within the bounds. -/
theorem not_within_infinity {m : Nat} {q : Int} (h : Canonical m q) (hq : q ≤ 971)
    (hlow : 0.0 ≤ u) (hhigh : u ≤ 1.0) :
    ¬ (pack true h ≤ pack true h + infinity * u ∧ pack true h + infinity * u ≤ pack false h) := by
  rintro ⟨hleft, hright⟩
  rcases unpack_infinity_mul hlow hhigh with hinfinite | hnone
  · have hsum : (pack true h + infinity * u).toModel.unpack = .infinity .positive := by
      have hadd : UnpackedFloat.add Format.binary64 (.finite (signOf true) m q h.positive)
          (.infinity .positive) = .infinity .positive := rfl
      rw [unpack_add, unpack_toModel true h hq, hinfinite, hadd, unpack_pack_infinity]
    have hlies : Lies (pack true h + infinity * u).toModel.unpack (2047 * 2 ^ 52) := by
      rw [hsum]
      exact .infinity false
    have hlt := (h.place_bounds hq).2
    have hle := (le_iff_lies hlies (lies_pack false h hq)).mp hright
    rw [signedPlace_false] at hle
    omega
  · have hsum : (pack true h + infinity * u).toModel.unpack = .notANumber := by
      have hadd : UnpackedFloat.add Format.binary64 (.finite (signOf true) m q h.positive)
          .notANumber = .notANumber := rfl
      rw [unpack_add, unpack_toModel true h hq, hnone, hadd, unpack_pack_notANumber]
    exact not_le_notANumber hsum hleft

end Overflow

/-! ## 5. Spreads -/

section Spread

variable {r u x y : Float} {s s' : Sign}

theorem unpack_zero_mul (hx : x.toModel.unpack = .zero s) (hlow : 0.0 ≤ u) (hhigh : u ≤ 1.0) :
    ∃ s', (x * u).toModel.unpack = .zero s' := by
  rcases unit_cases hlow hhigh with ⟨negative, rfl⟩ | ⟨k, l, hk, hl, rfl, -⟩
  · have hmul : UnpackedFloat.mul Format.binary64 (.zero s) (.zero (signOf negative)) =
        .zero (s * signOf negative) := rfl
    rw [unpack_mul, hx, unpack_zero, hmul]
    exact ⟨_, unpack_pack_zero _⟩
  · have hmul : UnpackedFloat.mul Format.binary64 (.zero s) (.finite (signOf false) k l hk.positive) =
        .zero (s * signOf false) := rfl
    rw [unpack_mul, hx, unpack_toModel false hk hl, hmul]
    exact ⟨_, unpack_pack_zero _⟩

theorem unpack_zero_add (hx : x.toModel.unpack = .zero s) (hy : y.toModel.unpack = .zero s') :
    ∃ s'', (x + y).toModel.unpack = .zero s'' := by
  have hadd : UnpackedFloat.add Format.binary64 (.zero s) (.zero s') =
      if s == s' then .zero s else .zero .positive := rfl
  rw [unpack_add, hx, hy, hadd]
  split
  · exact ⟨_, unpack_pack_zero _⟩
  · exact ⟨_, unpack_pack_zero _⟩

/-- Around zero nothing is drawn but zero. -/
theorem spread_zero (negative : Bool) (hlow : 0.0 ≤ u) (hhigh : u ≤ 1.0) :
    ∃ s, (spread (if negative then -0.0 else 0.0) u).toModel.unpack = .zero s := by
  have hwidth : ∃ s, ((if negative then -0.0 else 0.0 : Float) -
      -(if negative then -0.0 else 0.0)).toModel.unpack = .zero s := by
    cases negative with
    | true => exact ⟨.negative, rfl⟩
    | false => exact ⟨.positive, rfl⟩
  have hleft : ∃ s, (-(if negative then -0.0 else 0.0 : Float)).toModel.unpack = .zero s := by
    cases negative with
    | true => exact ⟨.positive, rfl⟩
    | false => exact ⟨.negative, rfl⟩
  obtain ⟨s, hwidth⟩ := hwidth
  obtain ⟨s', hleft⟩ := hleft
  obtain ⟨s'', hshare⟩ := unpack_zero_mul hwidth hlow hhigh
  exact unpack_zero_add hleft hshare

/-- From the lower end of the whole line no share leads anywhere. -/
theorem spread_infinity (hlow : 0.0 ≤ u) (hhigh : u ≤ 1.0) :
    (spread infinity u).toModel.unpack = .notANumber := by
  have hwidth : infinity - -infinity = infinity := eq_of_toBits (by decide +kernel)
  have hleft : (-infinity).toModel.unpack = .infinity .negative := rfl
  rw [spread, hwidth, unpack_add, hleft]
  rcases unpack_infinity_mul hlow hhigh with hinfinite | hnone
  · have hadd : UnpackedFloat.add Format.binary64 (.infinity .negative) (.infinity .positive) =
        .notANumber := rfl
    rw [hinfinite, hadd, unpack_pack_notANumber]
  · have hadd : UnpackedFloat.add Format.binary64 (.infinity .negative) .notANumber = .notANumber := rfl
    rw [hnone, hadd, unpack_pack_notANumber]

/-- **What is drawn between `-r` and `r` lies there exactly if the width is finite.** -/
theorem spread_within_iff (hr : 0.0 ≤ r) (hlow : 0.0 ≤ u) (hhigh : u ≤ 1.0) :
    (-r ≤ spread r u ∧ spread r u ≤ r) ↔ isFinite (r - -r) = true := by
  cases nonnegative_of_le hr with
  | zero negative =>
    obtain ⟨s, hspread⟩ := spread_zero negative hlow hhigh
    have hlies : Lies (spread (if negative then -0.0 else 0.0) u).toModel.unpack 0 :=
      hspread ▸ .zero s
    have hends : Lies (-(if negative then -0.0 else 0.0 : Float)).toModel.unpack 0 ∧
        Lies (if negative then -0.0 else 0.0 : Float).toModel.unpack 0 := by
      cases negative with
      | true => exact ⟨.zero .positive, .zero .negative⟩
      | false => exact ⟨.zero .negative, .zero .positive⟩
    have hfinite : isFinite ((if negative then -0.0 else 0.0) - -(if negative then -0.0 else 0.0)) =
        true := by
      cases negative with
      | true => decide +kernel
      | false => decide +kernel
    constructor
    · intro _
      exact hfinite
    · intro _
      exact ⟨(le_iff_lies hends.1 hlies).mpr le_rfl, (le_iff_lies hlies hends.2).mpr le_rfl⟩
  | @finite m q h hq =>
    obtain ⟨m', q', h', hvalue, hnext⟩ := h.double
    have hwidth : pack false h - pack true h =
        Float.ofModel (.pack (.finite .positive m' q' h'.positive)) := by
      rw [← sub_neg h.positive h' hvalue]
      show Float.ofModel (.pack (UnpackedFloat.sub Format.binary64 (pack false h).toModel.unpack
        (pack true h).toModel.unpack)) = _
      rw [unpack_toModel false h hq, unpack_toModel true h hq]
      rfl
    rw [spread, neg_pack h hq, hwidth]
    by_cases hfits : q' ≤ 971
    · constructor
      · intro _
        exact isFinite_pack h' hfits
      · intro _
        exact within_of_share h hq h' hfits hvalue hlow hhigh
    · rw [pack_overflow h'.positive (by omega)]
      have hinfinite : isFinite infinity = false := by decide +kernel
      rw [hinfinite]
      constructor
      · intro hwithin
        exact absurd hwithin (not_within_infinity h hq hlow hhigh)
      · intro hnot
        cases hnot
  | infinite =>
    have hinfinite : isFinite (infinity - -infinity) = false := by decide +kernel
    rw [hinfinite]
    constructor
    · rintro ⟨hleft, -⟩
      exact absurd hleft (not_le_notANumber (spread_infinity hlow hhigh))
    · intro hnot
      cases hnot

end Spread

end Number

/-! ## 6. Sources -/

/-- The doubles that a source gives are between zero and one. -/
def RandomSource.WithinUnit (σ : Type) [RandomSource σ] : Prop :=
  ∀ s : σ, 0.0 ≤ (RandomSource.unit s).1 ∧ (RandomSource.unit s).1 ≤ 1.0

namespace Twister

open Number

/-- One part of `2 ^ 53` is a power of two. -/
theorem canonical_part : Canonical (2 ^ 52) (-105) :=
  ⟨by norm_num, by norm_num, .inl le_rfl, by norm_num⟩

theorem part_eq : (1.0 / 9007199254740992.0 : Float) = pack false canonical_part :=
  eq_pack_of_bits canonical_part (by norm_num) (by decide +kernel)

/-- **As many parts as a number of 53 bits says are between none and all.** -/
theorem parts_within {n : Nat} (h : n < 2 ^ 53) :
    0.0 ≤ n.toFloat * (1.0 / 9007199254740992.0) ∧ n.toFloat * (1.0 / 9007199254740992.0) ≤ 1.0 := by
  rcases Nat.eq_zero_or_pos n with rfl | hpos
  · decide +kernel
  obtain ⟨hc, -, hvalue⟩ := canonical_shiftLeft hpos h
  have hlog : n.log2 < 53 := (Nat.log2_lt hpos.ne').mpr h
  have hfloat : n.toFloat = pack false hc := by
    have hself := contains_self (q := (n.log2 : Int) - 52) hc.positive
    rw [hvalue] at hself
    exact ofScientific_whole hpos hc (by omega) hself
  have hle : ((n <<< (52 - n.log2) : Nat) * 2 ^ ((n.log2 : Int) - 52)) *
      ((2 ^ 52 : Nat) * 2 ^ (-105 : Int)) ≤ ((2 ^ 52 : Nat) * 2 ^ (-52 : Int) : ℚ) := by
    have hn : (n : ℚ) ≤ 2 ^ 53 := by exact_mod_cast h.le
    rw [hvalue]
    norm_num
    linarith
  have hinside := mul_inside hc canonical_part canonical_one hle
  obtain ⟨p, hlies, hnonneg, hbound⟩ := hinside.lies canonical_one (by norm_num)
  have hproduct : Lies (n.toFloat * (1.0 / 9007199254740992.0)).toModel.unpack p := by
    rw [hfloat, part_eq, unpack_mul, unpack_toModel false hc (by omega),
      unpack_toModel false canonical_part (by norm_num)]
    exact (hinside.unpack_pack canonical_one (by norm_num)).symm ▸ hlies
  have hzero : Lies (0.0 : Float).toModel.unpack 0 := .zero .positive
  exact ⟨(le_iff_lies hzero hproduct).mpr hnonneg, (le_iff_lies hproduct lies_one).mpr hbound⟩

/-- **The doubles of the Mersenne twister are between zero and one.** -/
theorem withinUnit : RandomSource.WithinUnit Twister := by
  intro s
  -- The words give 27 bits and 26 bits.
  have hbits : ∀ a b : UInt32, (a >>> 5).toNat * 67108864 + (b >>> 6).toNat < 2 ^ 53 := by
    intro a b
    have ha := a.toNat_lt
    have hb := b.toNat_lt
    simp only [UInt32.toNat_shiftRight, UInt32.reduceToNat, Nat.reduceMod, Nat.shiftRight_eq_div_pow]
    omega
  exact parts_within (hbits _ _)

end Twister
end FormulaEvolution
