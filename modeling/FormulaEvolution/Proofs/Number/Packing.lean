/-
# Doubles from their parts

A finite double is packed from its sign and its canonical mantissa and exponent, and unpacked into
them again (`unpack_pack`, `decode_eq_pack`).
-/
import FormulaEvolution.Proofs.Number.Rounding

namespace FormulaEvolution
namespace Number

open Float.Model Float.Model.UnpackedFloat

/-! ## 1. Bits -/

/-- The sign of a number. -/
def signOf (negative : Bool) : Sign := if negative then .negative else .positive

theorem toNat_packComponents (s : Sign) (exponent : BitVec 11) (mantissa : BitVec 52) :
    (packComponents Format.binary64 s exponent mantissa).toNat =
      (s.toBitVec.toNat * 2 ^ 11 + exponent.toNat) * 2 ^ 52 + mantissa.toNat := by
  have h : packComponents Format.binary64 s exponent mantissa =
      (s.toBitVec ++ exponent) ++ mantissa := rfl
  rw [h, BitVec.toNat_append, BitVec.toNat_append, ← Nat.shiftLeft_add_eq_or_of_lt mantissa.isLt,
    ← Nat.shiftLeft_add_eq_or_of_lt exponent.isLt, Nat.shiftLeft_eq, Nat.shiftLeft_eq]

theorem unpackSign_packComponents (s : Sign) (exponent : BitVec 11) (mantissa : BitVec 52) :
    Sign.ofBitVec (unpackSign (packComponents Format.binary64 s exponent mantissa)) = s := by
  have hsign : unpackSign (packComponents Format.binary64 s exponent mantissa) = s.toBitVec := by
    refine BitVec.eq_of_toNat_eq ?_
    have hshift : (unpackSign (packComponents Format.binary64 s exponent mantissa)).toNat =
        (packComponents Format.binary64 s exponent mantissa).toNat >>> 63 % 2 := rfl
    have hexponent := exponent.isLt
    have hmantissa := mantissa.isLt
    have hbit := s.toBitVec.isLt
    rw [hshift, toNat_packComponents, Nat.shiftRight_eq_div_pow]
    omega
  rw [hsign]
  cases s <;> rfl

/-- The field of the exponent: zero if the hidden bit is missing. -/
def exponentField (m : Nat) (q : Int) : Nat := if 2 ^ 52 ≤ m then (q + 1075).toNat else 0

section Canonical

variable {m : Nat} {q : Int}

theorem Canonical.exponentField_lt (h : Canonical m q) (hq : q ≤ 971) :
    exponentField m q < 2047 ∧ (2 ^ 52 ≤ m ↔ exponentField m q ≠ 0) := by
  have hleast := h.least
  unfold exponentField
  split <;> omega

/-- How a canonical double is packed. -/
theorem pack_eq (s : Sign) (h : Canonical m q) (hq : q ≤ 971) :
    Float.Model.UnpackedFloat.pack Format.binary64 (.finite s m q h.positive) =
      packComponents Format.binary64 s (BitVec.ofNat 11 (exponentField m q)) (BitVec.ofNat 52 m) := by
  have hleast := h.least
  have hsmall : ¬ 2 ^ 11 ≤ (q + 1023 + 52).toNat + 1 := by omega
  have hlog : m.log2 + 1 = 53 ↔ 2 ^ 52 ≤ m := by
    have hlt := (Nat.log2_lt h.positive.ne').mpr h.upper
    rw [← Nat.le_log2 h.positive.ne']
    omega
  have hpack : Float.Model.UnpackedFloat.pack Format.binary64 (.finite s m q h.positive) =
      if 2 ^ 11 ≤ (q + 1023 + 52).toNat + 1 then packedInfinity Format.binary64 s
      else if m.log2 + 1 = 53 then
        packComponents Format.binary64 s (BitVec.ofNat 11 (q + 1023 + 52).toNat) (BitVec.ofNat 52 m)
      else packComponents Format.binary64 s 0#11 (BitVec.ofNat 52 m) := rfl
  rw [hpack, if_neg hsmall]
  by_cases hnormal : 2 ^ 52 ≤ m
  · have hfield : (q + 1023 + 52).toNat = exponentField m q := by
      rw [exponentField, if_pos hnormal]
      omega
    rw [if_pos (hlog.mpr hnormal), hfield]
  · rw [if_neg fun hm => hnormal (hlog.mp hm), exponentField, if_neg hnormal]

theorem finite_congr {s s' : Sign} {m' : Nat} {q' : Int} {h : 0 < m} {h' : 0 < m'} (hs : s = s')
    (hm : m = m') (hq : q = q') : UnpackedFloat.finite s m q h = .finite s' m' q' h' := by
  subst hs hm hq
  rfl

theorem ofNat_ne {w n : Nat} {b : BitVec w} (hn : n < 2 ^ w) (hne : n ≠ b.toNat) :
    BitVec.ofNat w n ≠ b := by
  rintro rfl
  exact hne (by rw [BitVec.toNat_ofNat, Nat.mod_eq_of_lt hn])

/-- How bits are unpacked. -/
theorem unpack_eq (bits : BitVec Format.binary64.numBits) :
    Float.Model.UnpackedFloat.unpack Format.binary64 bits =
      if unpackExponent bits = -1#11 then
        if unpackMantissa bits = 0#52 then .infinity (Sign.ofBitVec (unpackSign bits))
        else .notANumber
      else if unpackExponent bits = 0#11 then
        if h : unpackMantissa bits = 0#52 then .zero (Sign.ofBitVec (unpackSign bits))
        else .finite (Sign.ofBitVec (unpackSign bits)) (unpackMantissa bits).toNat
          ((unpackExponent bits).toNat - (1023 + 52) + 1)
          (by simpa [BitVec.toNat_pos, BitVec.pos_iff_ne_zero])
      else .finite (Sign.ofBitVec (unpackSign bits)) (1#1 ++ unpackMantissa bits).toNat
        ((unpackExponent bits).toNat - (1023 + 52)) (by
          rw [BitVec.toNat_append, ← Nat.shiftLeft_add_eq_or_of_lt (unpackMantissa bits).isLt,
            Nat.shiftLeft_eq]
          exact Nat.add_pos_left (Nat.mul_pos (by decide) (Nat.pow_pos (by decide))) _) := rfl

/-- **A canonical double is unpacked as it was packed.** -/
theorem unpack_pack (s : Sign) (h : Canonical m q) (hq : q ≤ 971) :
    Float.Model.UnpackedFloat.unpack Format.binary64
      (Float.Model.UnpackedFloat.pack Format.binary64 (.finite s m q h.positive)) =
      .finite s m q h.positive := by
  obtain ⟨hfield, hzero⟩ := h.exponentField_lt hq
  have htoNat : (BitVec.ofNat 11 (exponentField m q)).toNat = exponentField m q := by
    rw [BitVec.toNat_ofNat, Nat.mod_eq_of_lt (by omega)]
  have hsign := unpackSign_packComponents s (BitVec.ofNat 11 (exponentField m q)) (BitVec.ofNat 52 m)
  have hnotTop : BitVec.ofNat 11 (exponentField m q) ≠ -1#11 :=
    ofNat_ne (by omega) (show exponentField m q ≠ 2047 by omega)
  rw [pack_eq s h hq, unpack_eq, unpackExponent_packComponents, if_neg hnotTop]
  have hupper := h.upper
  have hpos := h.positive
  have hleast := h.least
  by_cases hnormal : 2 ^ 52 ≤ m
  · have hnotZero : BitVec.ofNat 11 (exponentField m q) ≠ 0#11 :=
      ofNat_ne (by omega) (hzero.mp hnormal)
    have hmantissa : (1#1 ++ BitVec.ofNat 52 m).toNat = m := by
      rw [BitVec.toNat_append, ← Nat.shiftLeft_add_eq_or_of_lt (BitVec.ofNat 52 m).isLt,
        Nat.shiftLeft_eq, BitVec.toNat_ofNat, BitVec.toNat_ofNat]
      omega
    have hexponent : ((BitVec.ofNat 11 (exponentField m q)).toNat : Int) - (1023 + 52) = q := by
      rw [htoNat, exponentField, if_pos hnormal]
      omega
    rw [if_neg hnotZero]
    exact finite_congr hsign (by rw [unpackMantissa_packComponents]; exact hmantissa) hexponent
  · have hzeroField : exponentField m q = 0 := if_neg hnormal
    have hbits : BitVec.ofNat 11 (exponentField m q) = 0#11 := by rw [hzeroField]
    have hmantissa : (BitVec.ofNat 52 m).toNat = m := by
      rw [BitVec.toNat_ofNat, Nat.mod_eq_of_lt (by omega)]
    have hmantissaZero : BitVec.ofNat 52 m ≠ 0#52 := ofNat_ne (by omega) hpos.ne'
    have hexponent : ((BitVec.ofNat 11 (exponentField m q)).toNat : Int) - (1023 + 52) + 1 = q := by
      rw [htoNat, hzeroField]
      have := h.lower
      omega
    rw [if_pos hbits, dif_neg (by rw [unpackMantissa_packComponents]; exact hmantissaZero)]
    exact finite_congr hsign (by rw [unpackMantissa_packComponents]; exact hmantissa) hexponent

/-! ## 2. Floats -/

/-- The double of a sign, a mantissa and an exponent. -/
def pack (negative : Bool) (h : Canonical m q) : Float :=
  .ofModel (.pack (.finite (signOf negative) m q h.positive))

theorem unpack_toModel (negative : Bool) (h : Canonical m q) (hq : q ≤ 971) :
    (pack negative h).toModel.unpack = .finite (signOf negative) m q h.positive :=
  unpack_pack (signOf negative) h hq

/-- The negative of a positive double. -/
theorem neg_pack (h : Canonical m q) (hq : q ≤ 971) : -(pack false h) = pack true h := by
  have hneg : -(pack false h) = .ofModel (.pack (pack false h).toModel.unpack.neg) := rfl
  rw [hneg, unpack_toModel false h hq]
  rfl

/-- Doubles with the same bits are the same. -/
theorem eq_of_toBits {x y : Float} (h : x.toBits.toNat = y.toBits.toNat) : x = y := by
  have hmodel : ∀ a b : Float.Model, a.toBits = b.toBits → a = b := by
    rintro ⟨bits, hbits⟩ ⟨bits', hbits'⟩ rfl
    rfl
  exact congrArg Float.ofModel (hmodel x.toModel y.toModel (UInt64.toNat_inj.mp h))

/-- A double has the bits of its sign, its exponent field and its mantissa. -/
theorem eq_pack_of_bits {x : Float} {negative : Bool} (h : Canonical m q) (hq : q ≤ 971)
    (hbits : x.toBits.toNat =
      ((if negative then 1 else 0) * 2 ^ 11 + exponentField m q) * 2 ^ 52 + m % 2 ^ 52) :
    x = pack negative h := by
  obtain ⟨hfield, -⟩ := h.exponentField_lt hq
  have hpacked : (pack negative h).toBits.toNat =
      (packComponents Format.binary64 (signOf negative) (BitVec.ofNat 11 (exponentField m q))
        (BitVec.ofNat 52 m)).toNat := by
    rw [← pack_eq (signOf negative) h hq]
    rfl
  have hsign : (signOf negative).toBitVec.toNat = if negative then 1 else 0 := by
    cases negative <;> rfl
  refine eq_of_toBits ?_
  rw [hpacked, toNat_packComponents, hsign, BitVec.toNat_ofNat, BitVec.toNat_ofNat,
    Nat.mod_eq_of_lt (show exponentField m q < 2 ^ 11 by omega)]
  exact hbits

theorem signBit_div {bits : Nat} (h : bits < 2 ^ 64) :
    (if decide (signBit ≤ bits) = true then 1 else 0) = bits / 2 ^ 63 := by
  by_cases hsign : signBit ≤ bits
  · rw [if_pos (decide_eq_true hsign)]
    unfold signBit at hsign
    omega
  · rw [if_neg (by simpa using hsign)]
    unfold signBit at hsign
    omega

/-- **A double whose parts are known is packed from them.** -/
theorem decode_eq_pack {x : Float} {negative : Bool} (hx : decode x = .finite negative m q)
    (hm : 0 < m) : ∃ h : Canonical m q, q ≤ 971 ∧ x = pack negative h := by
  suffices hparts : ∃ _ : Canonical m q, q ≤ 971 ∧ x.toBits.toNat =
      ((if negative then 1 else 0) * 2 ^ 11 + exponentField m q) * 2 ^ 52 + m % 2 ^ 52 by
    obtain ⟨h, hq, hbits⟩ := hparts
    exact ⟨h, hq, eq_pack_of_bits h hq hbits⟩
  have hlt : x.toBits.toNat < 2 ^ 64 := x.toBits.toNat_lt
  unfold decode at hx
  generalize x.toBits.toNat = bits at hx hlt
  have hsign := signBit_div hlt
  have hhidden : hiddenBit = 4503599627370496 := rfl
  have hplace : lastPlace = -1074 := rfl
  by_cases htop : bits / hiddenBit % 2048 = topExponent
  · rw [if_pos htop] at hx
    split at hx <;> cases hx
  · rw [if_neg htop] at hx
    have htop' : bits / hiddenBit % 2048 ≠ 2047 := htop
    by_cases hzero : bits / hiddenBit % 2048 = 0
    · -- The hidden bit is missing.
      rw [if_pos hzero] at hx
      cases hx
      rw [hhidden] at hm hzero htop' ⊢
      refine ⟨⟨hm, by omega, .inr rfl, le_refl _⟩, by omega, ?_⟩
      rw [hsign, exponentField, if_neg (by omega)]
      omega
    · rw [if_neg hzero] at hx
      cases hx
      rw [hhidden] at hm hzero htop' ⊢
      rw [hplace]
      refine ⟨⟨hm, by omega, .inl (by omega), by omega⟩, by omega, ?_⟩
      rw [hsign, exponentField, if_pos (by omega)]
      omega

end Canonical

/-- A double that stands for zero is one of the two zeros. -/
theorem eq_zero_of_decode {x : Float} {negative : Bool} {q : Int}
    (hx : decode x = .finite negative 0 q) : x = if negative then -0.0 else 0.0 := by
  suffices hbits : x.toBits.toNat = (if negative then 1 else 0) * 2 ^ 63 by
    refine eq_of_toBits ?_
    rw [hbits]
    cases negative with
    | true => decide +kernel
    | false => decide +kernel
  have hlt : x.toBits.toNat < 2 ^ 64 := x.toBits.toNat_lt
  unfold decode at hx
  generalize x.toBits.toNat = bits at hx hlt
  have hsign := signBit_div hlt
  have hhidden : hiddenBit = 4503599627370496 := rfl
  by_cases htop : bits / hiddenBit % 2048 = topExponent
  · rw [if_pos htop] at hx
    split at hx <;> cases hx
  · rw [if_neg htop] at hx
    by_cases hzero : bits / hiddenBit % 2048 = 0
    · rw [if_pos hzero] at hx
      injection hx with hnegative hfraction
      rw [hhidden] at hzero hfraction
      rw [← hnegative, hsign]
      omega
    · rw [if_neg hzero] at hx
      injection hx with _ hfraction
      rw [hhidden] at hfraction
      omega

/-! ## 3. Doubles that are not finite -/

/-- There is one absent number. -/
theorem eq_notANumber {x : Float} (h : decode x = .nan) : x = notANumber := by
  have hvalid := x.toModel.valid.eq_packedNaN
  simp only [decode] at h
  split at h
  · next htop =>
    split at h
    · cases h
    · next hfraction =>
      refine eq_of_toBits (congrArg BitVec.toNat (hvalid (BitVec.eq_of_toNat_eq ?_) ?_))
      · -- The field of the exponent has all its bits.
        have hfield : x.toBits.toNat >>> 52 % 2 ^ 11 = 2047 := by
          rw [Nat.shiftRight_eq_div_pow]
          exact htop
        exact hfield
      · intro hzero
        have hmantissa : x.toBits.toNat >>> 0 % 2 ^ 52 = 0 := congrArg BitVec.toNat hzero
        rw [Nat.shiftRight_zero] at hmantissa
        exact hfraction hmantissa
  · split at h <;> cases h

/-- An infinity is known by its sign. -/
theorem eq_infinity {x : Float} {negative : Bool} (h : decode x = .infinite negative) :
    x = if negative then -infinity else infinity := by
  suffices hbits : x.toBits.toNat = (if negative then 1 else 0) * 2 ^ 63 + 2047 * 2 ^ 52 by
    refine eq_of_toBits ?_
    rw [hbits]
    cases negative with
    | true => decide +kernel
    | false => decide +kernel
  have hlt : x.toBits.toNat < 2 ^ 64 := x.toBits.toNat_lt
  unfold decode at h
  generalize x.toBits.toNat = bits at h hlt
  have hsign := signBit_div hlt
  have hhidden : hiddenBit = 4503599627370496 := rfl
  have htopExponent : topExponent = 2047 := rfl
  by_cases htop : bits / hiddenBit % 2048 = topExponent
  · rw [if_pos htop] at h
    split at h
    · next hfraction =>
      cases h
      rw [hhidden] at htop hfraction
      rw [hsign]
      omega
    · cases h
  · rw [if_neg htop] at h
    split at h <;> cases h

end Number
end FormulaEvolution
