/-
# Where the wheel stops

In exact arithmetic the wheel gives each symbol a share in proportion to its frequency
(`chooseSymbol_shares`): a draw `u` between zero and one puts the mark `u * F` somewhere below the
sum `F` of all frequencies, and the wheel stops at the one index whose share the mark is in, that is,
between the sum of the frequencies before it and the sum with its own.

The shares are told for the weights and the mark of any run of the wheel that has come some way
already, whose sum so far is `start` (`passIndex?_eq_some_iff`); the induction is over the weights
that are left.  A mark in no share would have to be beyond the whole sum (`passIndex?_isSome`).

Exact arithmetic is that of any ordered field.  `chooseBy` is the choice with numbers of any kind, of
which `chooseSymbol` is the one with doubles (`chooseSymbol_eq`).
-/
import FormulaEvolution.Proofs.Random.Outcome
import FormulaEvolution.Random.Twister
import FormulaEvolution.Selection
import Mathlib.Algebra.Order.BigOperators.Group.List
import Mathlib.Algebra.Order.Field.Basic
import Mathlib.Data.Rat.Lemmas
import Mathlib.Tactic.NormNum

namespace FormulaEvolution

/-! ## 1. Choosing with numbers of any kind -/

section Any

variable {σ : Type} [RandomSource σ] {K : Type} [Add K] [Mul K] [Zero K] [LT K] [LE K]
  [DecidableLT K] [DecidableLE K]

/-- Choose a symbol by frequency, where frequencies and draws between zero and one are numbers of
some kind. -/
def chooseBy (draw : Draws σ K) (frequency : Symbol → K) (symbols : List Symbol) : Draws σ Symbol :=
  match symbols with
  | [] => throw (.invalid .noSymbolsToChoose)
  | [s] => return s
  | s :: rest =>
    let weights := symbols.map frequency
    if weightSum weights ≤ 0 then Draws.choose symbols
    else do
      let u ← draw
      return symbols.getD (wheelIndex weights u) (rest.getLastD s)

/-- **Symbols are chosen with doubles.** -/
theorem chooseSymbol_eq (symbols : List Symbol) :
    (chooseSymbol symbols : Draws σ Symbol) = chooseBy Draws.unit (·.frequency) symbols := by
  match symbols with
  | [] => rfl
  | [s] => rfl
  | s :: s' :: rest => rfl

end Any

/-! ## 2. Passing the mark -/

section Passing

variable {K : Type} [AddCommMonoid K] [LinearOrder K] [IsOrderedAddMonoid K]
  {mark start : K} {ws : List K} {i : Nat}

omit [LinearOrder K] [IsOrderedAddMonoid K] in
theorem weightSum_eq (ws : List K) : weightSum ws = ws.sum := by
  rw [weightSum, List.sum_eq_foldl]

theorem sum_take_nonneg (hws : ∀ w ∈ ws, 0 ≤ w) (i : Nat) : 0 ≤ (ws.take i).sum :=
  List.sum_nonneg fun w hw => hws w (List.mem_of_mem_take hw)

/-- **The sum passes the mark at an index exactly if the mark lies in its share.** -/
theorem passIndex?_eq_some_iff (hws : ∀ w ∈ ws, 0 ≤ w) (hstart : start ≤ mark) :
    passIndex? mark start ws = some i ↔ i < ws.length ∧
      start + (ws.take i).sum ≤ mark ∧ mark < start + (ws.take (i + 1)).sum := by
  induction ws generalizing start i with
  | nil => simp [passIndex?]
  | cons w ws ih =>
    have hrest : ∀ v ∈ ws, 0 ≤ v := fun v hv => hws v (List.mem_cons_of_mem w hv)
    by_cases hpass : mark < start + w
    · rw [passIndex?, if_pos hpass]
      cases i with
      | zero => simp [hstart, hpass]
      | succ i =>
        -- The sum with `w` is beyond the mark, and what follows does not lead back.
        have hbeyond : mark < start + (w + (ws.take i).sum) := by
          rw [← add_assoc]
          exact hpass.trans_le (le_add_of_nonneg_right (sum_take_nonneg hrest i))
        simp only [Option.some.injEq, List.take_succ_cons, List.sum_cons]
        constructor
        · intro hzero
          cases hzero
        · rintro ⟨-, hle, -⟩
          exact absurd hle (not_le.mpr hbeyond)
    · rw [passIndex?, if_neg hpass]
      cases i with
      | zero => simp [hpass]
      | succ i =>
        simp only [Option.map_eq_some_iff, Nat.add_right_cancel_iff, exists_eq_right,
          List.take_succ_cons, List.sum_cons, List.length_cons, Nat.add_lt_add_iff_right,
          ← add_assoc]
        exact ih hrest (not_lt.mp hpass)

omit [IsOrderedAddMonoid K] in
/-- A mark below the whole sum is passed. -/
theorem passIndex?_isSome (hmark : mark < start + ws.sum) (hstart : start ≤ mark) :
    ∃ i, passIndex? mark start ws = some i := by
  induction ws generalizing start with
  | nil =>
    rw [List.sum_nil, add_zero] at hmark
    exact absurd hmark (not_lt.mpr hstart)
  | cons w ws ih =>
    rw [passIndex?]
    by_cases hpass : mark < start + w
    · exact ⟨0, if_pos hpass⟩
    · rw [List.sum_cons, ← add_assoc] at hmark
      obtain ⟨i, hi⟩ := ih hmark (not_lt.mp hpass)
      exact ⟨i + 1, by rw [if_neg hpass, hi, Option.map_some]⟩

end Passing

/-! ## 3. Shares -/

section Shares

variable {K : Type} [Field K] [LinearOrder K] [IsStrictOrderedRing K] {ws : List K} {u : K}
  {i k : Nat}

/-- The mark of a draw lies in the share of an index: between the sum of the weights before it and
the sum with its own. -/
def InShare (ws : List K) (u : K) (i : Nat) : Prop :=
  i < ws.length ∧ (ws.take i).sum ≤ u * ws.sum ∧ u * ws.sum < (ws.take (i + 1)).sum

/-- **A draw lies in the share of the index where the sum passes its mark**, which there always is. -/
theorem passIndex?_eq_some_iff_inShare (hws : ∀ w ∈ ws, 0 ≤ w) (hsum : 0 < ws.sum) (hlow : 0 ≤ u) :
    passIndex? (u * weightSum ws) 0 ws = some i ↔ InShare ws u i := by
  rw [weightSum_eq, passIndex?_eq_some_iff hws (mul_nonneg hlow hsum.le), zero_add, zero_add,
    InShare]

theorem exists_inShare (hws : ∀ w ∈ ws, 0 ≤ w) (hsum : 0 < ws.sum) (hlow : 0 ≤ u) (hhigh : u < 1) :
    ∃ i, InShare ws u i := by
  have hmark : u * ws.sum < 0 + ws.sum := by
    rw [zero_add]
    exact mul_lt_of_lt_one_left hsum hhigh
  obtain ⟨i, hi⟩ := passIndex?_isSome hmark (mul_nonneg hlow hsum.le)
  rw [← weightSum_eq] at hi
  exact ⟨i, (passIndex?_eq_some_iff_inShare hws hsum hlow).mp hi⟩

/-- Shares do not overlap. -/
theorem InShare.unique (hws : ∀ w ∈ ws, 0 ≤ w) (hsum : 0 < ws.sum) (hlow : 0 ≤ u)
    (hi : InShare ws u i) (hk : InShare ws u k) : k = i := by
  rw [← passIndex?_eq_some_iff_inShare hws hsum hlow] at hi hk
  exact Option.some.inj (hk.symm.trans hi)

/-- An index whose share holds a draw has a weight. -/
theorem InShare.pos (hi : InShare ws u i) : 0 < ws.get ⟨i, hi.1⟩ := by
  obtain ⟨hlt, hlow, hhigh⟩ := hi
  rw [List.sum_take_succ ws i hlt] at hhigh
  exact pos_of_lt_add_right (hlow.trans_lt hhigh)

/-- **The draws in a share make an interval**, whose length is the part of the whole sum that the
weight is. -/
theorem inShare_iff (hsum : 0 < ws.sum) (hi : i < ws.length) :
    InShare ws u i ↔
      (ws.take i).sum / ws.sum ≤ u ∧ u < (ws.take i).sum / ws.sum + ws[i] / ws.sum := by
  rw [InShare, List.sum_take_succ ws i hi, ← add_div, div_le_iff₀ hsum, lt_div_iff₀ hsum]
  exact and_iff_right hi

end Shares

/-! ## 4. The symbol chosen -/

section Chosen

variable {σ : Type} [RandomSource σ] {K : Type} [Field K] [LinearOrder K]
  {symbols : List Symbol} {frequency : Symbol → K}

/-- Two symbols or more whose frequencies have a positive sum cost one draw, which says where the
wheel stops. -/
theorem runFrom_chooseBy (htwo : 2 ≤ symbols.length) (hsum : 0 < (symbols.map frequency).sum)
    {draw : Draws σ K} {s s' : σ} {u : K} (hdraw : draw.runFrom s = (.ok u, s')) {i : Nat}
    (hi : i < symbols.length)
    (hpass : passIndex? (u * weightSum (symbols.map frequency)) 0 (symbols.map frequency) = some i) :
    (chooseBy draw frequency symbols).runFrom s = (.ok symbols[i], s') := by
  match symbols, htwo with
  | first :: second :: rest, _ =>
    have hpositive : ¬ weightSum ((first :: second :: rest).map frequency) ≤ 0 := by
      rw [weightSum_eq]
      exact not_le.mpr hsum
    have hindex : wheelIndex ((first :: second :: rest).map frequency) u = i := by
      rw [wheelIndex, hpass, Option.getD_some]
    rw [chooseBy, if_neg hpositive, Draws.runFrom_bind_ok hdraw, hindex, Draws.runFrom_pure,
      List.getD_eq_getElem?_getD, List.getElem?_eq_getElem hi, Option.getD_some]
    nofun

variable [IsStrictOrderedRing K]

/-- **In exact arithmetic every symbol has a share in proportion to its frequency.**  For two symbols
or more, whose frequencies are not negative and have a positive sum:

* the choice is the one that is made with doubles, with other numbers for them;
* a draw lies in the share of exactly one index, where the sum of the frequencies passes the mark of
  the draw.  The symbol there is chosen, and it has a frequency;
* the draws in the share of an index are an interval within zero and one, whose length is the part
  that the frequency is of the sum of all. -/
theorem chooseSymbol_shares (htwo : 2 ≤ symbols.length) (hnonneg : ∀ s ∈ symbols, 0 ≤ frequency s)
    (hsum : 0 < (symbols.map frequency).sum) :
    (∀ all, (chooseSymbol all : Draws σ Symbol) = chooseBy Draws.unit (·.frequency) all) ∧
    (∀ (draw : Draws σ K) (s s' : σ) (u : K), draw.runFrom s = (.ok u, s') → 0 ≤ u → u < 1 →
      ∃ i, ∃ hi : i < symbols.length, (∀ k, InShare (symbols.map frequency) u k ↔ k = i) ∧
        passIndex? (u * weightSum (symbols.map frequency)) 0 (symbols.map frequency) = some i ∧
        (chooseBy draw frequency symbols).runFrom s = (.ok symbols[i], s') ∧
        0 < frequency symbols[i]) ∧
    ∀ i (hi : i < symbols.length), ∃ low high, 0 ≤ low ∧ high ≤ 1 ∧
      high - low = frequency symbols[i] / (symbols.map frequency).sum ∧
      ∀ u, InShare (symbols.map frequency) u i ↔ low ≤ u ∧ u < high := by
  have hweights : ∀ w ∈ symbols.map frequency, 0 ≤ w := by
    intro w hw
    obtain ⟨s, hs, rfl⟩ := List.mem_map.mp hw
    exact hnonneg s hs
  refine ⟨chooseSymbol_eq, ?_, ?_⟩
  · intro draw s s' u hdraw hlow hhigh
    obtain ⟨i, hshare⟩ := exists_inShare hweights hsum hlow hhigh
    have hi : i < symbols.length := by simpa using hshare.1
    have hpass := (passIndex?_eq_some_iff_inShare hweights hsum hlow).mpr hshare
    refine ⟨i, hi, ?_, hpass, runFrom_chooseBy htwo hsum hdraw hi hpass, by simpa using hshare.pos⟩
    intro k
    constructor
    · exact hshare.unique hweights hsum hlow
    · rintro rfl
      exact hshare
  · intro i hi
    have hi' : i < (symbols.map frequency).length := by simpa using hi
    refine ⟨_, _, ?_, ?_, ?_, fun u => inShare_iff hsum hi'⟩
    · exact div_nonneg (sum_take_nonneg hweights i) hsum.le
    · -- What the weights up to this one leave of the sum is not negative.
      have hrest : 0 ≤ ((symbols.map frequency).drop (i + 1)).sum :=
        List.sum_nonneg fun w hw => hweights w (List.mem_of_mem_drop hw)
      rw [← add_div, ← List.sum_take_succ _ i hi', div_le_one hsum,
        ← List.sum_take_add_sum_drop (symbols.map frequency) (i + 1)]
      exact le_add_of_nonneg_right hrest
    · rw [add_sub_cancel_left, List.getElem_map]

end Chosen

/-! ## 5. Four symbols -/

/-- Four symbols, of which the first and the third are given no frequency below. -/
def fourSymbols : List Symbol := ["a", "b", "c", "d"].map Symbol.forVariable

/-- Frequencies of one and three. -/
def oneToThree (s : Symbol) : ℚ := if s.name = "b" then 1 else if s.name = "d" then 3 else 0

theorem map_oneToThree : fourSymbols.map oneToThree = [0, 1, 0, 3] := by
  decide +kernel

/-- The first quarter of the draws is the share of the second symbol.  A draw of one quarter is the
first one behind it, and in the share of the fourth symbol. -/
theorem shares_of_four : 2 ≤ fourSymbols.length ∧ (∀ s ∈ fourSymbols, 0 ≤ oneToThree s) ∧
    0 < (fourSymbols.map oneToThree).sum ∧
    (chooseBy (pure (1 / 4)) oneToThree fourSymbols).runFrom (Twister.ofSeed 1) =
      (.ok (Symbol.forVariable "d"), Twister.ofSeed 1) := by
  have hnonneg : ∀ s ∈ fourSymbols, 0 ≤ oneToThree s := by decide +kernel
  have hsum : 0 < (fourSymbols.map oneToThree).sum := by rw [map_oneToThree]; norm_num
  refine ⟨by decide, hnonneg, hsum, ?_⟩
  obtain ⟨-, hchosen, -⟩ :=
    chooseSymbol_shares (σ := Twister) (by decide) hnonneg hsum
  obtain ⟨i, hi, hunique, -, hrun, -⟩ := hchosen (pure (1 / 4)) (Twister.ofSeed 1) _ _
    (Draws.runFrom_pure _ _) (by norm_num) (by norm_num)
  have hfourth : InShare (fourSymbols.map oneToThree) (1 / 4) 3 := by
    rw [map_oneToThree, InShare]
    norm_num
  obtain rfl := (hunique 3).mp hfourth
  exact hrun

end FormulaEvolution
