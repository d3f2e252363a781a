/-
# Constants in compiled expressions

The shortest text of a finite number is read as the number again (`ofText_exactText`): its digits
spell a decimal in the interval of the number, and the nearest double to such a decimal is the number.
So the text of a constant is a phrase whose code runs to the constant (`phrase_constant`).
-/
import FormulaEvolution.Proofs.Code.Numerals
import FormulaEvolution.Proofs.Number.Scientific
import FormulaEvolution.Proofs.Number.Shortest

namespace FormulaEvolution
namespace Number

/-! ## 1. What digits spell -/

/-- Digits spell a number that has no more digits. -/
theorem ofDigits_lt {ds : List Char} (h : ∀ c ∈ ds, c.isDigit = true) :
    ofDigits ds < 10 ^ ds.length := by
  suffices hall : ∀ n : Nat, Nat.ofDigitChars 10 ds n < (n + 1) * 10 ^ ds.length by
    have hzero := hall 0
    rwa [Nat.zero_add, Nat.one_mul] at hzero
  induction ds with
  | nil => simp
  | cons c cs ih =>
    intro n
    have hc : c.toNat - '0'.toNat < 10 := Token.of_isDigit (h c List.mem_cons_self) (by decide)
    rw [Nat.ofDigitChars_cons, List.length_cons]
    calc Nat.ofDigitChars 10 cs (10 * n + (c.toNat - '0'.toNat))
        < (10 * n + (c.toNat - '0'.toNat) + 1) * 10 ^ cs.length :=
          ih (fun d hd => h d (List.mem_cons_of_mem c hd)) _
      _ ≤ (10 * (n + 1)) * 10 ^ cs.length := Nat.mul_le_mul_right _ (by omega)
      _ = (n + 1) * 10 ^ (cs.length + 1) := by ring

/-- Zeros in front do not count, and each zero behind is a factor of ten. -/
theorem ofDigits_zeros (i : Nat) (ds : List Char) (k : Nat) :
    ofDigits (List.replicate i '0' ++ ds ++ List.replicate k '0') = ofDigits ds * 10 ^ k := by
  have hchars : ∀ l, ofDigits l = Nat.ofDigitChars 10 l 0 := fun _ => rfl
  rw [hchars, hchars, Nat.ofDigitChars_append, Nat.ofDigitChars_append,
    Nat.ofDigitChars_replicate_zero, Nat.ofDigitChars_replicate_zero, Nat.mul_zero, Nat.mul_comm]

section Spelling

variable {n : Numeral} {scientific : Bool}

/-- The number before rounding that a numeral spells is the decimal's. -/
theorem Spells.value {c : Nat} {e : Int} (h : Spells n scientific (Decimal.ofScaled c e)) :
    (ofDigits (n.whole ++ n.fraction) : ℚ) * 10 ^ (n.exponent - n.fraction.length) =
      c * 10 ^ e := by
  obtain ⟨i, k, hdigits, hexponent⟩ := h.digits
  obtain ⟨⟨hne, -⟩, k', hcoefficient⟩ := ofScaled_digits c e
  have hpos : 0 < (Decimal.ofScaled c e).digits.length := List.length_pos_iff.mpr hne
  have hlength := congrArg List.length hcoefficient
  rw [List.length_append, List.length_replicate] at hlength
  have hplace : (Decimal.ofScaled c e).place = e + ((Nat.toDigits 10 c).length - 1 : Nat) := rfl
  have hc : c = ofDigits (Decimal.ofScaled c e).digits * 10 ^ k' := by
    have hzeros := ofDigits_zeros 0 (Decimal.ofScaled c e).digits k'
    rw [List.replicate_zero, List.nil_append, ← hcoefficient] at hzeros
    exact Nat.ofDigitChars_ten_toDigits.symm.trans hzeros
  have hexponent' : n.exponent - n.fraction.length = e + k' - k := by omega
  rw [hdigits, ofDigits_zeros, hexponent', zpow_sub₀ (by norm_num), zpow_add₀ (by norm_num),
    zpow_natCast, zpow_natCast]
  conv_rhs => rw [hc]
  push_cast
  field_simp

/-- **A numeral that spells the shortest decimal of a double is read as the double.** -/
theorem Spells.toFloat_eq {m : Nat} {q : Int} (hc : Canonical m q) (hq : q ≤ 971)
    (h : Spells n scientific (shortest m q)) : n.toFloat = pack false hc := by
  obtain ⟨c, e, hshortest, hcontains⟩ := shortest_contains hc
  rw [hshortest] at h
  have hvalue := h.value
  have hlt : ofDigits (n.whole ++ n.fraction) < 10 ^ (n.whole ++ n.fraction).length :=
    ofDigits_lt fun a ha => (List.mem_append.mp ha).elim (h.whole.2 a) (h.fraction a)
  have hpos : 0 < ofDigits (n.whole ++ n.fraction) := by
    refine Nat.pos_of_ne_zero fun hzero => ?_
    obtain ⟨hrange, -⟩ := contains_range hc hq hcontains
    have hmin : (0 : ℚ) < 2 ^ (-1075 : Int) := by positivity
    rw [← hvalue, hzero, Nat.cast_zero, zero_mul] at hrange
    linarith
  rw [← hvalue] at hcontains
  rw [Numeral.toFloat, h.unsigned]
  exact ofScaled_eq hpos hlt hc hq hcontains

/-- The shortest decimal of zero spells zero. -/
theorem Spells.toFloat_zero {q : Int} (h : Spells n scientific (shortest 0 q)) :
    n.toFloat = 0.0 := by
  obtain ⟨i, k, hdigits, -⟩ := h.digits
  have hzero : ofDigits (n.whole ++ n.fraction) = 0 := by
    have hshortest : (shortest 0 q).digits = ['0'] := rfl
    rw [hdigits, ofDigits_zeros, hshortest]
    exact Nat.zero_mul _
  simp only [Numeral.toFloat, h.unsigned, ofScaled, hzero, decide_true, Bool.true_or, if_true]
  rfl

end Spelling

/-! ## 2. Reading back -/

section Finite

variable {x : Float} {negative : Bool} {m : Nat} {q : Int}

/-- A numeral that spells the shortest decimal of a finite number is its magnitude. -/
theorem Spells.magnitude {n : Numeral} {scientific : Bool} (hx : decode x = .finite negative m q)
    (h : Spells n scientific (shortest m q)) : x = if negative then -n.toFloat else n.toFloat := by
  rcases Nat.eq_zero_or_pos m with rfl | hpos
  · rw [eq_zero_of_decode hx, h.toFloat_zero]
  · obtain ⟨hc, hq, hpack⟩ := decode_eq_pack hx hpos
    rw [hpack, h.toFloat_eq hc hq, neg_pack hc hq]
    cases negative <;> rfl

/-- **A finite number is written as a numeral for its magnitude**, behind a minus sign if it is
negative. -/
theorem exactText_finite (hx : decode x = .finite negative m q) : ∃ n scientific,
    Spells n scientific (shortest m q) ∧
      exactText x = signed negative (numeralText n scientific) ∧
      x = if negative then -n.toFloat else n.toFloat := by
  obtain ⟨n, scientific, hspells, htext⟩ := exact_spells (areDigits_shortest m q)
  refine ⟨n, scientific, hspells, ?_, hspells.magnitude hx⟩
  simp only [exactText, textBy, hx, htext]

/-- **The shortest text of a finite number reads back as the number**, from the least double to the
greatest and with the sign of a zero. -/
theorem ofText_exactText (hfinite : isFinite x = true) : ofText? (exactText x) = some x := by
  match hx : decode x with
  | .nan => simp [isFinite, hx] at hfinite
  | .infinite _ => simp [isFinite, hx] at hfinite
  | .finite negative m q =>
    obtain ⟨n, scientific, hspells, htext, hvalue⟩ := exactText_finite hx
    obtain ⟨hplain, hminus⟩ := hspells.ofText
    rw [htext, signed]
    cases negative with
    | true => exact hminus.trans (congrArg some hvalue.symm)
    | false => exact hplain.trans (congrArg some hvalue.symm)

end Finite
end Number

/-! ## 3. Constants as phrases -/

/-- **The text of a finite constant is a phrase** without names, and running it gives the constant. -/
theorem phrase_constant {value : Float} (hfinite : Number.isFinite value = true) :
    ∃ tokens code, Phrase (constantText value) tokens code ∧ (∀ n, .name n ∉ tokens) ∧
      ∀ call b, code.run call b = .ok (.number value) := by
  match hdecode : Number.decode value with
  | .nan => simp [Number.isFinite, hdecode] at hfinite
  | .infinite _ => simp [Number.isFinite, hdecode] at hfinite
  | .finite negative m q =>
    obtain ⟨n, scientific, hspells, htext, hvalue⟩ := Number.exactText_finite hdecode
    obtain ⟨hnumeral, hnotWhole⟩ := hspells.isNumeral
    have htoken : Token.ofNumeral? (Number.numeralText n scientific) = some (.number n.toFloat) := by
      rw [Token.ofNumeral?, if_neg (by simp [hnotWhole]), hspells.ofText.1, Option.map_some]
    have hlist : (Number.exactText value).toList = (if negative then
        '-' :: Number.numeralText n scientific else Number.numeralText n scientific) := by
      rw [htext, Number.signed, String.toList_ofList]
    cases negative with
    | true =>
      rw [if_pos rfl] at hlist hvalue
      refine ⟨_, _, by rw [constantText, hlist]; exact phrase_negated hnumeral htoken, by simp, ?_⟩
      intro call b
      rw [hvalue, Code.run, Code.run]
      exact Value.lift_numbers (fun xs => -xs.getD 0 0.0) [n.toFloat]
    | false =>
      rw [if_neg (by decide)] at hlist hvalue
      refine ⟨_, _, by rw [constantText, hlist]; exact phrase_number hnumeral htoken, by simp, ?_⟩
      intro call b
      rw [hvalue, Code.run]

end FormulaEvolution
