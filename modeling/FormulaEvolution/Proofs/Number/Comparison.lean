/-
# Doubles compare as their ranks do

A double that is a number lies on the line of integers at its rank, and two of them compare as their
ranks do (`le_iff_rank`, `less_iff_rank`).  A key of a fitness always is a number, so the order of
fitness values is the order of their keys (`fitnessKey_le_iff`, `fitnessKey_lt_iff`).

A double that stands for something within zero and one lies between them (`within_unit`): the
bounds of a chance are the same for what a double stands for and for the double.

The place of a finite magnitude on that line is linear in its parts: a unit of the exponent counts
`2 ^ 52`, and so does the hidden bit.  Since a mantissa has no more than 53 bits, and fewer only
next to zero, the places of two magnitudes compare as their exponents and then their mantissas do.
-/
import FormulaEvolution.Number.Order
import FormulaEvolution.Proofs.Number.Packing
import FormulaEvolution.Score

namespace FormulaEvolution
namespace Number

open Float.Model Float.Model.UnpackedFloat

/-! ## 1. Places -/

/-- The place of a magnitude on the line of doubles. -/
def place (m : Nat) (q : Int) : Int := (q + 1074) * 2 ^ 52 + m

/-- A place with a sign. -/
def signedPlace (negative : Bool) (p : Int) : Int := if negative then -p else p

theorem signedPlace_true (p : Int) : signedPlace true p = -p := rfl

theorem signedPlace_false (p : Int) : signedPlace false p = p := rfl

/-- A sign does not take a place out of bounds. -/
theorem signedPlace_within (negative : Bool) {p bound : Int} (h : 0 < p ∧ p < bound) :
    -bound < signedPlace negative p ∧ signedPlace negative p < bound := by
  cases negative with
  | true =>
    rw [signedPlace_true]
    omega
  | false =>
    rw [signedPlace_false]
    omega

/-- The rank of a finite number is the place of its magnitude, with its sign. -/
theorem rank_finite {x : Float} {negative : Bool} {m : Nat} {q : Int}
    (hx : decode x = .finite negative m q) : rank x = signedPlace negative (place m q) := by
  have hlt : x.toBits.toNat < 2 ^ 64 := x.toBits.toNat_lt
  simp only [decode] at hx
  simp only [rank]
  generalize x.toBits.toNat = bits at hx hlt ⊢
  have hhidden : hiddenBit = 4503599627370496 := rfl
  have hsignBit : signBit = 9223372036854775808 := rfl
  have hplace : lastPlace = -1074 := rfl
  split at hx
  · split at hx <;> cases hx
  · split at hx
    · next hzero =>
      cases hx
      rw [hhidden] at hzero ⊢
      rw [hsignBit, place, signedPlace, hplace]
      by_cases hsign : 9223372036854775808 ≤ bits
      · simp only [hsign, if_true, decide_true]
        omega
      · simp only [hsign, if_false, decide_false, Bool.false_eq_true]
        omega
    · next hnormal =>
      cases hx
      rw [hhidden] at hnormal ⊢
      rw [hsignBit, place, signedPlace, hplace]
      by_cases hsign : 9223372036854775808 ≤ bits
      · simp only [hsign, if_true, decide_true]
        omega
      · simp only [hsign, if_false, decide_false, Bool.false_eq_true]
        omega

theorem rank_infinite {x : Float} {negative : Bool} (hx : decode x = .infinite negative) :
    rank x = signedPlace negative (2047 * 2 ^ 52) := by
  rw [eq_infinity hx]
  cases negative with
  | true => decide +kernel
  | false => decide +kernel

section Places

variable {m m' : Nat} {q q' : Int}

/-- The place of a finite magnitude is behind zero and before infinity. -/
theorem Canonical.place_bounds (h : Canonical m q) (hq : q ≤ 971) :
    0 < place m q ∧ place m q < 2047 * 2 ^ 52 := by
  have hpositive := h.positive
  have hupper := h.upper
  have hleast := h.least
  unfold place
  omega

/-- Places are in the order of the exponents, and of the mantissas where these agree. -/
theorem place_le_iff (h : Canonical m q) (h' : Canonical m' q') :
    place m q ≤ place m' q' ↔ q < q' ∨ q = q' ∧ m ≤ m' := by
  have hupper := h.upper
  have hupper' := h'.upper
  have hlower := h.lower
  have hlower' := h'.lower
  have hleast := h.least
  have hleast' := h'.least
  unfold place
  omega

theorem compare_isLE (m m' : Nat) (q q' : Int) :
    ((compare q q').then (compare m m')).isLE = true ↔ q < q' ∨ q = q' ∧ m ≤ m' := by
  rw [Ordering.isLE_then_iff_or, Int.compare_eq_lt, Int.compare_eq_eq, Nat.isLE_compare]

end Places

/-! ## 2. Comparing -/

/-- A number that has been unpacked, and its rank. -/
inductive Lies : UnpackedFloat → Int → Prop
  | zero (s : Sign) : Lies (.zero s) 0
  | infinity (negative : Bool) :
      Lies (.infinity (signOf negative)) (signedPlace negative (2047 * 2 ^ 52))
  | finite (negative : Bool) {m : Nat} {q : Int} (h : Canonical m q) : q ≤ 971 →
      Lies (.finite (signOf negative) m q h.positive) (signedPlace negative (place m q))

/-- A double that is a number lies at its rank. -/
theorem lies_rank {x : Float} (hx : isNaN x = false) : Lies x.toModel.unpack (rank x) := by
  match hdecode : decode x with
  | .nan => simp [isNaN, hdecode] at hx
  | .infinite negative =>
    rw [rank_infinite hdecode, eq_infinity hdecode]
    cases negative with
    | true => exact .infinity true
    | false => exact .infinity false
  | .finite negative m q =>
    rcases Nat.eq_zero_or_pos m with rfl | hm
    · rw [eq_zero_of_decode hdecode]
      cases negative with
      | true =>
        have hrank : rank (-0.0) = 0 := by decide +kernel
        rw [if_pos rfl, hrank]
        exact .zero .negative
      | false =>
        have hrank : rank 0.0 = 0 := by decide +kernel
        rw [if_neg (by decide), hrank]
        exact .zero .positive
    · obtain ⟨hc, hq, hpack⟩ := decode_eq_pack hdecode hm
      rw [rank_finite hdecode, hpack, unpack_toModel negative hc hq]
      exact .finite negative hc hq

theorem le_eq_true {u v : UnpackedFloat} {a b : Int} (hle : u.le v = true) (h : a ≤ b) :
    u.le v = decide (a ≤ b) := hle.trans (decide_eq_true h).symm

theorem le_eq_false {u v : UnpackedFloat} {a b : Int} (hle : u.le v = false) (h : b < a) :
    u.le v = decide (a ≤ b) := hle.trans (decide_eq_false (Int.not_le.mpr h)).symm

/-- Two magnitudes of one sign compare by their parts, the other way round if negative. -/
theorem finite_le_finite {m m' : Nat} {q q' : Int} (h : Canonical m q) (hq : q ≤ 971)
    (h' : Canonical m' q') (hq' : q' ≤ 971) (negative negative' : Bool) :
    (UnpackedFloat.finite (signOf negative) m q h.positive).le
        (.finite (signOf negative') m' q' h'.positive) =
      decide (signedPlace negative (place m q) ≤ signedPlace negative' (place m' q')) := by
  have hbounds := h.place_bounds hq
  have hbounds' := h'.place_bounds hq'
  cases negative with
  | true =>
    cases negative' with
    | true =>
      have hcompare := compare_isLE m' m q' q
      rw [← place_le_iff h' h, Std.OrientedOrd.eq_swap (a := q'),
        Std.OrientedOrd.eq_swap (a := m'), ← Ordering.swap_then] at hcompare
      rw [Bool.eq_iff_iff, decide_eq_true_eq]
      exact hcompare.trans Int.neg_le_neg_iff.symm
    | false => exact le_eq_true rfl (by rw [signedPlace_true, signedPlace_false]; omega)
  | false =>
    cases negative' with
    | true => exact le_eq_false rfl (by rw [signedPlace_true, signedPlace_false]; omega)
    | false =>
      have hcompare := compare_isLE m m' q q'
      rw [← place_le_iff h h'] at hcompare
      rw [Bool.eq_iff_iff, decide_eq_true_eq]
      exact hcompare

/-- **Unpacked numbers compare as their ranks do.** -/
theorem Lies.compare {u v : UnpackedFloat} {a b : Int} (hu : Lies u a) (hv : Lies v b) :
    u.le v = decide (a ≤ b) := by
  cases hu with
  | zero s =>
    cases hv with
    | zero s' => rfl
    | infinity negative => cases negative <;> rfl
    | finite negative h hq =>
      have hbounds := h.place_bounds hq
      cases negative with
      | true => exact le_eq_false rfl (by rw [signedPlace_true]; omega)
      | false => exact le_eq_true rfl (by rw [signedPlace_false]; omega)
  | infinity negative =>
    cases hv with
    | zero s' => cases negative <;> rfl
    | infinity negative' => cases negative <;> cases negative' <;> rfl
    | finite negative' h hq =>
      have hwithin := signedPlace_within negative' (h.place_bounds hq)
      cases negative with
      | true => exact le_eq_true rfl (Int.le_of_lt hwithin.1)
      | false => exact le_eq_false rfl hwithin.2
  | @finite negative m q h hq =>
    have hbounds := h.place_bounds hq
    cases hv with
    | zero s' =>
      cases negative with
      | true => exact le_eq_true rfl (by rw [signedPlace_true]; omega)
      | false => exact le_eq_false rfl (by rw [signedPlace_false]; omega)
    | infinity negative' =>
      have hwithin := signedPlace_within negative hbounds
      cases negative' with
      | true => exact le_eq_false rfl hwithin.1
      | false => exact le_eq_true rfl (Int.le_of_lt hwithin.2)
    | finite negative' h' hq' => exact finite_le_finite h hq h' hq' negative negative'

theorem le_iff_unpack {x y : Float} : x ≤ y ↔ x.toModel.unpack.le y.toModel.unpack = true := by
  have hmodel : x ≤ y ↔ decide (x.toModel ≤ y.toModel) = true := Iff.rfl
  rw [hmodel, decide_eq_true_eq]
  exact Iff.rfl

/-- **Doubles compare as the places where they lie.** -/
theorem le_iff_lies {x y : Float} {a b : Int} (hx : Lies x.toModel.unpack a)
    (hy : Lies y.toModel.unpack b) : x ≤ y ↔ a ≤ b := by
  rw [le_iff_unpack, hx.compare hy, decide_eq_true_eq]

/-- What is less is not more, for all doubles. -/
theorem le_of_less {x y : Float} (h : x < y) : x ≤ y := by
  have hless : (x.toModel.unpack.compare y.toModel.unpack == some .lt) = true := by
    have hmodel : decide (x.toModel < y.toModel) = true := h
    rw [decide_eq_true_eq] at hmodel
    exact hmodel
  rw [le_iff_unpack, UnpackedFloat.le, eq_of_beq hless]
  rfl

/-- **Doubles that are numbers compare as their ranks do.** -/
theorem le_iff_rank {x y : Float} (hx : isNaN x = false) (hy : isNaN y = false) :
    x ≤ y ↔ rank x ≤ rank y := le_iff_lies (lies_rank hx) (lies_rank hy)

/-- Comparing the other way round turns the outcome round. -/
theorem compare_swap (u v : UnpackedFloat) : v.compare u = (u.compare v).map Ordering.swap := by
  cases u with
  | notANumber => cases v <;> rfl
  | infinity s =>
    cases v with
    | infinity s' => cases s <;> cases s' <;> rfl
    | notANumber => rfl
    | zero s' => cases s <;> rfl
    | finite s' m q h => cases s <;> rfl
  | zero s =>
    cases v with
    | infinity s' => cases s' <;> rfl
    | notANumber => rfl
    | zero s' => rfl
    | finite s' m q h => cases s' <;> rfl
  | finite s m q h =>
    cases v with
    | infinity s' => cases s' <;> rfl
    | notANumber => rfl
    | zero s' => cases s <;> rfl
    | finite s' m' q' h' =>
      have hswap : (compare q' q).then (compare m' m) =
          ((compare q q').then (compare m m')).swap := by
        rw [Ordering.swap_then, ← Std.OrientedOrd.eq_swap, ← Std.OrientedOrd.eq_swap]
      cases s with
      | positive =>
        cases s' with
        | positive => exact congrArg some hswap
        | negative => rfl
      | negative =>
        cases s' with
        | positive => rfl
        | negative => exact congrArg some (congrArg Ordering.swap hswap)

/-- **Doubles that are numbers are less as their ranks are.**  Being no more is known by rank, both
ways, and leaves only one outcome of the comparison. -/
theorem less_iff_rank {x y : Float} (hx : isNaN x = false) (hy : isNaN y = false) :
    x < y ↔ rank x < rank y := by
  have hless : x < y ↔ x.toModel.unpack.compare y.toModel.unpack = some .lt := by
    have hmodel : x < y ↔ decide (x.toModel < y.toModel) = true := Iff.rfl
    rw [hmodel, decide_eq_true_eq]
    exact beq_iff_eq
  have hle := le_iff_rank hx hy
  have hge := le_iff_rank hy hx
  rw [le_iff_unpack, UnpackedFloat.le] at hle hge
  rw [compare_swap] at hge
  rw [hless]
  cases hcompare : x.toModel.unpack.compare y.toModel.unpack with
  | none =>
    -- Ranks are always comparable.
    simp only [hcompare, Option.map_none, Option.any_none, Bool.false_eq_true, false_iff] at hle hge
    omega
  | some outcome =>
    simp only [hcompare, Option.map_some, Option.any_some] at hle hge
    cases outcome with
    | lt => simpa using hge
    | eq => simpa using hge
    | gt => simpa using hge

/-! ## 3. Within zero and one -/

/-- A magnitude that is at most one lies no further out than one does. -/
theorem Canonical.place_le_one {m : Nat} {q : Int} (h : Canonical m q)
    (hle : Shape.scaled false m (q - min q 0).toNat ≤ Shape.scaled false 1 (0 - min q 0).toNat) :
    place m q ≤ 1023 * 2 ^ 52 := by
  simp only [Shape.scaled, Bool.false_eq_true, if_false, Nat.pow_eq, Nat.one_mul] at hle
  have hle : m * 2 ^ (q - min q 0).toNat ≤ 2 ^ (0 - min q 0).toNat := by exact_mod_cast hle
  have hupper := h.upper
  have hlower := h.lower
  have hpow : m ≤ m * 2 ^ (q - min q 0).toNat := Nat.le_mul_of_pos_right _ (Nat.two_pow_pos _)
  have hm : m ≤ 2 ^ (0 - min q 0).toNat := hpow.trans hle
  unfold place
  by_cases hsmall : q ≤ -53
  · omega
  · -- The mantissa has all its bits, so the exponent is that of one.
    have hshift : 2 ^ (0 - min q 0).toNat ≤ 2 ^ 52 :=
      Nat.pow_le_pow_right (by decide) (by omega)
    by_cases hone : q = -52
    · omega
    · have hless : 2 ^ (0 - min q 0).toNat ≤ 2 ^ 51 :=
        Nat.pow_le_pow_right (by decide) (by omega)
      omega

/-- **A double that stands for something within zero and one is within them.** -/
theorem within_unit {x : Float} (hlow : (Shape.ofWhole 0).atMost (decode x) = true)
    (hhigh : (decode x).atMost (.ofWhole 1) = true) : 0.0 ≤ x ∧ x ≤ 1.0 := by
  match hdecode : decode x with
  | .nan => simp [hdecode, Shape.atMost, Shape.compareBy] at hhigh
  | .infinite negative =>
    simp only [hdecode, Shape.atMost, Shape.ofWhole, Shape.compareBy] at hlow hhigh
    simp [hhigh] at hlow
  | .finite negative m q =>
    rcases Nat.eq_zero_or_pos m with rfl | hm
    · rw [eq_zero_of_decode hdecode]
      cases negative with
      | true => decide +kernel
      | false => decide +kernel
    · obtain ⟨hc, hq, -⟩ := decode_eq_pack hdecode hm
      have hbounds := hc.place_bounds hq
      have hnumber : isNaN x = false := by simp [isNaN, hdecode]
      have hzero : isNaN 0.0 = false ∧ rank 0.0 = 0 := by decide +kernel
      have hone : isNaN 1.0 = false ∧ rank 1.0 = 1023 * 2 ^ 52 := by decide +kernel
      rw [hdecode] at hlow hhigh
      simp only [Shape.atMost, Shape.ofWhole, Shape.compareBy, decide_eq_true_eq] at hlow hhigh
      cases negative with
      | true =>
        have hpos := Nat.mul_pos hm (Nat.two_pow_pos (q - min 0 q).toNat)
        have hnegative : (0 : Int) ≤ -((m * 2 ^ (q - min 0 q).toNat : Nat) : Int) := by
          simpa [Shape.scaled] using hlow
        omega
      | false =>
        rw [le_iff_rank hzero.1 hnumber, le_iff_rank hnumber hone.1, hzero.2, hone.2,
          rank_finite hdecode]
        exact ⟨hbounds.1.le, hc.place_le_one hhigh⟩

end Number

/-! ## 4. Keys -/

/-- A key is a number. -/
theorem isNaN_fitnessKey (fitness : Option Float) :
    Number.isNaN (fitnessKey fitness) = false := by
  have hworst : Number.isNaN (-Number.infinity) = false := by decide +kernel
  cases fitness with
  | none => exact hworst
  | some x =>
    rw [fitnessKey]
    split
    · exact hworst
    · next hx => simpa using hx

/-- **A fitness matches or beats another one exactly if its key is at least as large.** -/
theorem fitnessKey_le_iff {a b : Option Float} :
    fitnessKey b ≤ fitnessKey a ↔ matchesOrBeats a b = true := by
  rw [Number.le_iff_rank (isNaN_fitnessKey b) (isNaN_fitnessKey a), matchesOrBeats,
    decide_eq_true_eq]
  exact Iff.rfl

/-- **A fitness beats another one exactly if its key is larger.** -/
theorem fitnessKey_lt_iff {a b : Option Float} : fitnessKey b < fitnessKey a ↔ beats a b = true := by
  rw [Number.less_iff_rank (isNaN_fitnessKey b) (isNaN_fitnessKey a), beats, decide_eq_true_eq]
  exact Iff.rfl

end FormulaEvolution
