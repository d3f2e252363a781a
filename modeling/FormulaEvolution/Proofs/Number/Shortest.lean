/-
# Shortest decimals read back

The decimal that is chosen for a double lies in the interval of the double (`shortest_contains`).  A
grid point is only taken if it does, and the grid of seventeen digits is so fine that the point
nearest to the double is nearer than the ends of the interval.
-/
import FormulaEvolution.Proofs.Number.Rounding

namespace FormulaEvolution
namespace Number

/-! ## 1. Scales -/

/-- A power and its numerator and denominator. -/
theorem power_eq (base : Nat) (e : Int) (hbase : 0 < base) :
    0 < (power base e).1 ∧ 0 < (power base e).2 ∧
      ((power base e).1 : ℚ) = base ^ e * ((power base e).2 : ℚ) := by
  have hne : (base : ℚ) ≠ 0 := by exact_mod_cast hbase.ne'
  have hpos := fun k => Nat.pow_pos (n := k) hbase
  unfold power
  split
  · next hnonneg =>
    refine ⟨hpos _, by norm_num, ?_⟩
    have he : (base : ℚ) ^ e = base ^ (e.toNat : Int) := by rw [Int.toNat_of_nonneg hnonneg]
    rw [he, zpow_natCast]
    push_cast [Nat.pow_eq]
    ring
  · next hneg =>
    refine ⟨by norm_num, hpos _, ?_⟩
    have he : (base : ℚ) ^ e = ((base : ℚ) ^ ((-e).toNat : Int))⁻¹ := by
      rw [← zpow_neg, Int.toNat_of_nonneg (by omega), neg_neg]
    rw [he, zpow_natCast]
    push_cast [Nat.pow_eq]
    field_simp

theorem digitCount_bounds {n : Nat} (hn : 0 < n) :
    0 < digitCount n ∧ 10 ^ (digitCount n - 1) ≤ n ∧ n < 10 ^ digitCount n := by
  have hpos : 0 < digitCount n := Nat.length_toDigits_pos
  refine ⟨hpos, ?_, (Nat.length_toDigits_le_iff (by norm_num) hpos).mp (le_refl _)⟩
  rcases Nat.eq_zero_or_pos (digitCount n - 1) with hzero | hmore
  · rw [hzero]
    exact hn
  · by_contra hlt
    have := (Nat.length_toDigits_le_iff (by norm_num) hmore).mpr (Nat.not_le.mp hlt)
    have hcount : digitCount n ≤ digitCount n - 1 := this
    omega

/-- The leading digit stands at its place or before it. -/
theorem leadingPlace_le {num den : Nat} (hnum : 0 < num) (hden : 0 < den) :
    (10 : ℚ) ^ leadingPlace num den ≤ num / den := by
  have hden' : (0 : ℚ) < den := by exact_mod_cast hden
  obtain ⟨-, hdown, hpower⟩ :=
    power_eq 10 ((digitCount num : Int) - (digitCount den : Int)) (by norm_num)
  simp only [leadingPlace]
  split
  · next hle =>
    have hdown' : (0 : ℚ) < (power 10 ((digitCount num : Int) - (digitCount den : Int))).2 := by
      exact_mod_cast hdown
    have hle' : (den : ℚ) * (power 10 ((digitCount num : Int) - (digitCount den : Int))).1 ≤
        num * (power 10 ((digitCount num : Int) - (digitCount den : Int))).2 := by
      exact_mod_cast hle
    rw [hpower, ← mul_assoc] at hle'
    rw [le_div_iff₀ hden', mul_comm]
    exact_mod_cast le_of_mul_le_mul_right hle' hdown'
  · obtain ⟨hcount, hlow, -⟩ := digitCount_bounds hnum
    obtain ⟨-, -, hhigh⟩ := digitCount_bounds hden
    have hlow' : (10 : ℚ) ^ ((digitCount num : Int) - 1) ≤ num := by
      have hexponent : ((digitCount num : Int) - 1) = ((digitCount num - 1 : Nat) : Int) := by omega
      rw [hexponent, zpow_natCast]
      exact_mod_cast hlow
    have hhigh' : (den : ℚ) ≤ 10 ^ (digitCount den : Int) := by exact_mod_cast hhigh.le
    rw [le_div_iff₀ hden']
    calc (10 : ℚ) ^ ((digitCount num : Int) - digitCount den - 1) * den
        ≤ 10 ^ ((digitCount num : Int) - digitCount den - 1) * 10 ^ (digitCount den : Int) :=
          mul_le_mul_of_nonneg_left hhigh' (by positivity)
      _ = 10 ^ ((digitCount num : Int) - 1) := by
          rw [← zpow_add₀ (by norm_num)]
          congr 1
          omega
      _ ≤ num := hlow'

/-- A quotient is rounded by no more than a half. -/
theorem roundDiv_near {num den : Nat} (hden : 0 < den) :
    |(roundDiv num den : ℚ) - num / den| ≤ 1 / 2 := by
  have hden' : (0 : ℚ) < den := by exact_mod_cast hden
  have hbounds : 2 * roundDiv num den * den ≤ 2 * num + den ∧
      2 * num ≤ 2 * roundDiv num den * den + den := by
    have hsplit := Nat.div_add_mod num den
    have hrest := Nat.mod_lt num hden
    have hup : 2 * (num / den + 1) * den = 2 * (den * (num / den)) + 2 * den := by ring
    have hdown : 2 * (num / den) * den = 2 * (den * (num / den)) := by ring
    simp only [roundDiv]
    split
    · rw [hdown]; omega
    · split
      · rw [hup]; omega
      · split
        · rw [hdown]; omega
        · rw [hup]; omega
  obtain ⟨hle, hge⟩ := hbounds
  have hle' : (2 * roundDiv num den * den : ℚ) ≤ 2 * num + den := by exact_mod_cast hle
  have hge' : (2 * num : ℚ) ≤ 2 * roundDiv num den * den + den := by exact_mod_cast hge
  have hquotient : (num : ℚ) / den * den = num := div_mul_cancel₀ _ hden'.ne'
  rw [abs_le]
  constructor
  · refine le_of_mul_le_mul_right ?_ hden'
    rw [sub_mul, hquotient]
    linarith
  · refine le_of_mul_le_mul_right ?_ hden'
    rw [sub_mul, hquotient]
    linarith

/-! ## 2. Grid points -/

section Grid

variable {i : Interval} {q : Int} {num den c : Nat} {step : ℚ}

/-- The test of a grid point compares with the interval. -/
theorem contains_of_holds {k : ℚ} (hk : 0 < k) (hnum : (num : ℚ) = k * 2 ^ (q - 2))
    (hden : (den : ℚ) = k * step) (h : i.holds num den c = true) : i.Contains q (c * step) := by
  have hleft : ∀ n : Nat, ((n * num : Nat) : ℚ) = k * (n * 2 ^ (q - 2)) := by
    intro n
    push_cast
    rw [hnum]
    ring
  have hright : ((c * den : Nat) : ℚ) = k * (c * step) := by
    push_cast
    rw [hden]
    ring
  have hle : ∀ {a b : Nat} {x y : ℚ}, (a : ℚ) = k * x → (b : ℚ) = k * y → a ≤ b → x ≤ y := by
    intro a b x y ha hb hab
    have hab' : (a : ℚ) ≤ b := by exact_mod_cast hab
    rw [ha, hb] at hab'
    exact le_of_mul_le_mul_left hab' hk
  have hlt : ∀ {a b : Nat} {x y : ℚ}, (a : ℚ) = k * x → (b : ℚ) = k * y → a < b → x < y := by
    intro a b x y ha hb hab
    have hab' : (a : ℚ) < b := by exact_mod_cast hab
    rw [ha, hb] at hab'
    exact lt_of_mul_lt_mul_left hab' hk.le
  by_cases hclosed : i.closed = true
  · rw [Interval.holds, if_pos hclosed, Bool.and_eq_true, decide_eq_true_iff,
      decide_eq_true_iff] at h
    refine ⟨⟨hle (hleft _) hright h.1, hle hright (hleft _) h.2⟩, ?_⟩
    simp [hclosed]
  · rw [Interval.holds, if_neg hclosed, Bool.and_eq_true, decide_eq_true_iff,
      decide_eq_true_iff] at h
    have hbounds := And.intro (hlt (hleft _) hright h.1) (hlt hright (hleft _) h.2)
    exact ⟨⟨hbounds.1.le, hbounds.2.le⟩, fun _ => hbounds⟩

/-- A grid point that is taken passes the test. -/
theorem holds_of_gridPoint (h : gridPoint? i num den = some c) : i.holds num den c = true := by
  simp only [gridPoint?] at h
  split at h
  · next hbelow habove =>
    cases h
    rcases roundDiv_eq_or (i.middle * num) den with heq | heq
    · rw [heq]; exact hbelow
    · rw [heq]; exact habove
  · next hbelow _ =>
    cases h
    exact hbelow
  · next _ habove =>
    cases h
    exact habove
  · cases h

/-- The point of a grid that is nearest to the middle of the interval. -/
def nearestPoint (i : Interval) (q last : Int) : Nat :=
  roundDiv (i.middle * (power 2 (q - 2)).1 * (power 10 last).2)
    ((power 2 (q - 2)).2 * (power 10 last).1)

/-- If the finest grid has a point in the interval nearest to its middle, the search finds one. -/
theorem shortestFrom_contains {lead : Int} {tries count : Nat}
    (hfinest : i.Contains q (nearestPoint i q (lead - (tries + count - 1 : Nat)) *
      10 ^ (lead - (tries + count - 1 : Nat) : Int))) :
    ∃ c e, shortestFrom i q lead tries count = Decimal.ofScaled c e ∧
      i.Contains q (c * 10 ^ e) := by
  induction tries generalizing count with
  | zero =>
    rw [Nat.zero_add] at hfinest
    exact ⟨_, _, rfl, hfinest⟩
  | succ tries ih =>
    obtain ⟨-, hdown2, hpower2⟩ := power_eq 2 (q - 2) (by norm_num)
    obtain ⟨-, hdown10, hpower10⟩ := power_eq 10 (lead - (count - 1 : Nat)) (by norm_num)
    have hdown2' : (0 : ℚ) < (power 2 (q - 2)).2 := by exact_mod_cast hdown2
    have hdown10' : (0 : ℚ) < (power 10 (lead - (count - 1 : Nat))).2 := by exact_mod_cast hdown10
    simp only [shortestFrom]
    split
    · next c hpoint =>
      refine ⟨_, _, rfl, contains_of_holds (mul_pos hdown2' hdown10') ?_ ?_
        (holds_of_gridPoint hpoint)⟩
      · push_cast [hpower2]
        ring
      · push_cast [hpower10]
        ring
    · refine ih ?_
      have hcount : tries + (count + 1) = tries + 1 + count := by omega
      rw [hcount]
      exact hfinest

end Grid

/-! ## 3. Seventeen digits -/

section Finest

variable {m : Nat} {q lead : Int}

/-- The nearest point of a grid is no more than half a step away. -/
theorem nearestPoint_near (m : Nat) (q last : Int) :
    |(nearestPoint (.around m q) q last : ℚ) * 10 ^ last - m * 2 ^ q| ≤ 1 / 2 * 10 ^ last := by
  obtain ⟨-, hdown2, hpower2⟩ := power_eq 2 (q - 2) (by norm_num)
  obtain ⟨hup10, hdown10, hpower10⟩ := power_eq 10 last (by norm_num)
  have hdown2' : (0 : ℚ) < (power 2 (q - 2)).2 := by exact_mod_cast hdown2
  have hdown10' : (0 : ℚ) < (power 10 last).2 := by exact_mod_cast hdown10
  have hstep : (0 : ℚ) < 10 ^ last := by positivity
  have hmiddle : ((Interval.around m q).middle : ℚ) * 2 ^ (q - 2) = m * 2 ^ q := by
    rw [quarter_mul]
    simp only [Interval.around]
    push_cast
    ring
  have hquotient : (((Interval.around m q).middle * (power 2 (q - 2)).1 * (power 10 last).2 : Nat) :
      ℚ) / (((power 2 (q - 2)).2 * (power 10 last).1 : Nat) : ℚ) = m * 2 ^ q / 10 ^ last := by
    push_cast [hpower2, hpower10]
    rw [← hmiddle]
    field_simp
  have hpoint : |(nearestPoint (.around m q) q last : ℚ) - m * 2 ^ q / 10 ^ last| ≤ 1 / 2 := by
    rw [← hquotient]
    exact roundDiv_near (Nat.mul_pos hdown2 hup10)
  have hscaled := mul_le_mul_of_nonneg_right hpoint hstep.le
  rwa [← abs_of_pos hstep, ← abs_mul, abs_of_pos hstep, sub_mul, div_mul_cancel₀ _ hstep.ne']
    at hscaled

/-- With sixteen places behind the leading one a grid is finer than the doubles. -/
theorem nearestPoint_contains (hc : Canonical m q) (hlead : (10 : ℚ) ^ lead ≤ m * 2 ^ q) :
    (Interval.around m q).Contains q
      (nearestPoint (.around m q) q (lead - 16) * 10 ^ (lead - 16)) := by
  have hunit : (0 : ℚ) < 2 ^ q := by positivity
  refine contains_of_near hc.positive (lt_of_le_of_lt (nearestPoint_near m q (lead - 16)) ?_)
  have hfine : (10 : ℚ) ^ (lead - 16) ≤ m / 10 ^ 16 * 2 ^ q := by
    rw [zpow_sub₀ (by norm_num), div_le_iff₀ (by positivity)]
    refine hlead.trans (le_of_eq ?_)
    norm_cast
    field_simp
  have hhalf : (m : ℚ) / 10 ^ 16 * (1 / 2) < if m = hiddenBit then 1 / 4 else 1 / 2 := by
    split
    · next hm =>
      rw [hm, hiddenBit]
      norm_num
    · have hupper : (m : ℚ) < 2 ^ 53 := by exact_mod_cast hc.upper
      linarith
  have hless := mul_lt_mul_of_pos_right hhalf hunit
  linarith

/-- **The shortest decimal of a double lies in its interval.** -/
theorem shortest_contains (hc : Canonical m q) : ∃ c e, shortest m q = Decimal.ofScaled c e ∧
    (Interval.around m q).Contains q (c * 10 ^ e) := by
  obtain ⟨hup, hdown, hpower⟩ := power_eq 2 q (by norm_num)
  have hdown' : (0 : ℚ) < (power 2 q).2 := by exact_mod_cast hdown
  have hlead : (10 : ℚ) ^ leadingPlace (m * (power 2 q).1) (power 2 q).2 ≤ m * 2 ^ q := by
    refine (leadingPlace_le (Nat.mul_pos hc.positive hup) hdown).trans (le_of_eq ?_)
    push_cast [hpower]
    field_simp
  simp only [shortest, if_neg hc.positive.ne']
  exact shortestFrom_contains (nearestPoint_contains hc hlead)

end Finest

end Number
end FormulaEvolution
