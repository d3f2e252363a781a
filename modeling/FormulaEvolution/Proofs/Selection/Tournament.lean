/-
# Who wins a tournament

A tournament draws as many indices as it has rounds, one at least, and nothing else from its
source.  Its winner is the member at the first of these indices where the key of the fitness is the
greatest (`tournament_first_fittest`).  A member may be drawn more than once, and members may share a
key, so this is told of the indices in the order in which they are drawn.

`contest` compares each new member with the best so far.  The invariant is that the best so far is
the first fittest of what has been drawn (`FirstFittest`); one more index keeps it
(`FirstFittest.concat`), and so do all rounds (`runFrom_contest`).

What is unscored or no number has the key minus infinity.  It wins only where nothing drawn has a
greater one (`unscored_or_infinite`).
-/
import FormulaEvolution.Proofs.Number.Comparison
import FormulaEvolution.Proofs.Random.Outcome
import FormulaEvolution.Selection

namespace FormulaEvolution

/-! ## 1. The least key -/

/-- A fitness that is missing, or no number. -/
def Unscored (fitness : Option Float) : Prop := ∀ x, fitness = some x → Number.isNaN x = true

/-- No number is below minus infinity. -/
theorem Number.eq_neg_infinity {x : Float} (hx : isNaN x = false) (hle : x ≤ -infinity) :
    x = -infinity := by
  have hlowest : isNaN (-infinity) = false ∧ rank (-infinity) = -(2047 * 2 ^ 52) := by
    decide +kernel
  rw [le_iff_rank hx hlowest.1, hlowest.2] at hle
  cases hdecode : decode x with
  | nan => simp [isNaN, hdecode] at hx
  | infinite negative =>
    rw [rank_infinite hdecode] at hle
    cases negative with
    | true => rw [eq_infinity hdecode, if_pos rfl]
    | false =>
      rw [signedPlace_false] at hle
      omega
  | finite negative m q =>
    rcases Nat.eq_zero_or_pos m with rfl | hm
    · -- Both zeros have the rank zero.
      have hzero : rank x = 0 := by
        rw [eq_zero_of_decode hdecode]
        cases negative with
        | true => decide +kernel
        | false => decide +kernel
      omega
    · obtain ⟨hc, hq, -⟩ := decode_eq_pack hdecode hm
      have hwithin := signedPlace_within negative (hc.place_bounds hq)
      rw [rank_finite hdecode] at hle
      omega

section Least

variable {a b : Option Float}

theorem fitnessKey_unscored (h : Unscored a) : fitnessKey a = -Number.infinity := by
  cases a with
  | none => rfl
  | some x => rw [fitnessKey, if_pos (h x rfl)]

/-- **What is matched by something unscored is unscored as well, or minus infinity.** -/
theorem unscored_or_infinite (ha : Unscored a) (hle : fitnessKey b ≤ fitnessKey a) :
    Unscored b ∨ b = some (-Number.infinity) := by
  cases b with
  | none => exact .inl nofun
  | some y =>
    cases hy : Number.isNaN y with
    | true =>
      left
      intro x hx
      cases hx
      exact hy
    | false =>
      right
      rw [fitnessKey_unscored ha, fitnessKey, hy, if_neg Bool.false_ne_true] at hle
      rw [Number.eq_neg_infinity hy hle]

end Least

/-! ## 2. The first fittest of some indices -/

/-- The first of some indices among those where the key is the greatest: the keys before it are
less, and none is greater. -/
def FirstFittest {n : Nat} (fitness : Fin n → Option Float) (drawn : List (Fin n)) (i : Fin n) :
    Prop :=
  ∃ before after, drawn = before ++ i :: after ∧
    (∀ j ∈ before, fitnessKey (fitness j) < fitnessKey (fitness i)) ∧
    ∀ j ∈ drawn, fitnessKey (fitness j) ≤ fitnessKey (fitness i)

section FirstFittest

variable {n : Nat} {fitness : Fin n → Option Float} {drawn : List (Fin n)} {i : Fin n}

theorem firstFittest_singleton (fitness : Fin n → Option Float) (i : Fin n) :
    FirstFittest fitness [i] i := by
  refine ⟨[], [], rfl, nofun, ?_⟩
  intro j hj
  rw [List.mem_singleton.mp hj]
  exact fitnessKey_le_iff.mpr (matchesOrBeats_refl _)

/-- **One more index takes the place of the first fittest exactly if it beats it.** -/
theorem FirstFittest.concat (h : FirstFittest fitness drawn i) (j : Fin n) :
    FirstFittest fitness (drawn ++ [j]) (if beats (fitness j) (fitness i) then j else i) := by
  obtain ⟨before, after, hdrawn, hbefore, hall⟩ := h
  by_cases hbeats : beats (fitness j) (fitness i) = true
  · rw [if_pos hbeats]
    -- Nothing drawn so far matches what beats the best of it.
    have hless : ∀ k ∈ drawn, beats (fitness j) (fitness k) = true := by
      intro k hk
      have hmatched := fitnessKey_le_iff.mp (hall k hk)
      simp only [beats, matchesOrBeats, decide_eq_true_eq] at hbeats hmatched ⊢
      omega
    refine ⟨drawn, [], rfl, fun k hk => fitnessKey_lt_iff.mpr (hless k hk), ?_⟩
    intro k hk
    rcases List.mem_append.mp hk with hk | hk
    · exact Number.le_of_less (fitnessKey_lt_iff.mpr (hless k hk))
    · rw [List.mem_singleton.mp hk]
      exact fitnessKey_le_iff.mpr (matchesOrBeats_refl _)
  · rw [if_neg hbeats]
    refine ⟨before, after ++ [j], by rw [hdrawn, List.append_assoc, List.cons_append], hbefore, ?_⟩
    intro k hk
    rcases List.mem_append.mp hk with hk | hk
    · exact hall k hk
    · rw [List.mem_singleton.mp hk]
      rw [beats_iff_not, Bool.not_eq_false] at hbeats
      exact fitnessKey_le_iff.mpr hbeats

end FirstFittest

/-! ## 3. Rounds -/

section Rounds

variable {σ α : Type} [RandomSource σ]

/-- Draw indices below a positive bound, one after the other. -/
def Draws.indices (n : Nat) (h : 0 < n) : Nat → Draws σ (List (Fin n))
  | 0 => return []
  | rounds + 1 => do
    let i ← Draws.below n h
    let rest ← indices n h rounds
    return i :: rest

/-- As many indices are drawn as are asked for. -/
theorem Draws.returns_indices {n : Nat} (h : 0 < n) (rounds : Nat) :
    (indices n h rounds : Draws σ (List (Fin n))).Returns fun drawn => drawn.length = rounds := by
  induction rounds with
  | zero => exact returns_pure rfl
  | succ rounds ih =>
    refine returns_bind (P := fun _ => True) (fun s => ⟨_, _, runFrom_below n h s, trivial⟩) ?_
    intro i _
    refine returns_bind ih fun rest hrest => returns_pure ?_
    rw [List.length_cons, hrest]

theorem Draws.runFrom_choose_below {members : List α} (h : 0 < members.length) (s : σ) :
    (choose members : Draws σ α).runFrom s =
      (.ok (members.get (RandomSource.below members.length h s).1),
        (RandomSource.below members.length h s).2) := by
  simp only [choose, dif_pos h, runFrom_bind, runFrom_below, runFrom_pure]

variable {members : List α} {fitness : α → Option Float}

/-- **The rounds of a contest draw an index each, and leave the first fittest of all drawn**, if
they begin with the first fittest of what was drawn before. -/
theorem runFrom_contest (h : 0 < members.length) (rounds : Nat) :
    ∀ {drawn : List (Fin members.length)} {i : Fin members.length} (s : σ),
      FirstFittest (fun j => fitness (members.get j)) drawn i →
        ∃ more winner s', (Draws.indices members.length h rounds).runFrom s = (.ok more, s') ∧
          FirstFittest (fun j => fitness (members.get j)) (drawn ++ more) winner ∧
          (contest (fun x => .ok (fitness x)) members rounds
            (members.get i, fitness (members.get i))).runFrom s = (.ok (members.get winner), s') := by
  induction rounds with
  | zero =>
    intro drawn i s hfirst
    exact ⟨[], i, s, rfl, by rwa [List.append_nil], rfl⟩
  | succ rounds ih =>
    intro drawn i s hfirst
    obtain ⟨more, winner, s', hmore, hwinner, hcontest⟩ :=
      ih (RandomSource.below members.length h s).2
        (hfirst.concat (RandomSource.below members.length h s).1)
    refine ⟨(RandomSource.below members.length h s).1 :: more, winner, s', ?_, ?_, ?_⟩
    · rw [Draws.indices, Draws.runFrom_bind_ok (Draws.runFrom_below _ h s),
        Draws.runFrom_bind_ok hmore, Draws.runFrom_pure]
    · rwa [List.append_assoc, List.singleton_append] at hwinner
    · rw [contest, Draws.runFrom_bind_ok (Draws.runFrom_choose_below h s),
        Draws.runFrom_bind_ok (Draws.runFrom_ofExcept _ _), ← hcontest]
      congr 2
      split
      · rfl
      · rfl

/-- **A tournament is won by the first fittest of the members drawn.**  From every state of every
source it draws as many indices as it has rounds, one at least, and nothing else; the winner is the
member at the first of them where the key of the fitness is the greatest.  It is unscored only if
everything drawn is unscored or minus infinity. -/
theorem tournament_first_fittest (h : 0 < members.length) (size : Int) (fitness : α → Option Float)
    (s : σ) :
    ∃ drawn s', (Draws.indices members.length h (max 1 size).toNat).runFrom s = (.ok drawn, s') ∧
      drawn.length = (max 1 size).toNat ∧
      ∃ winner, FirstFittest (fun j => fitness (members.get j)) drawn winner ∧
        (tournament size (fun x => .ok (fitness x)) members).runFrom s =
          (.ok (members.get winner), s') ∧
        (Unscored (fitness (members.get winner)) → ∀ j ∈ drawn,
          Unscored (fitness (members.get j)) ∨
            fitness (members.get j) = some (-Number.infinity)) := by
  have hrounds : (max 1 size).toNat = (max 1 size - 1).toNat + 1 := by omega
  have hnonempty : members.isEmpty = false := by
    rw [List.isEmpty_eq_false_iff, ← List.length_pos_iff]
    exact h
  obtain ⟨more, winner, s', hmore, hwinner, hcontest⟩ :=
    runFrom_contest h (max 1 size - 1).toNat (RandomSource.below members.length h s).2
      (firstFittest_singleton (fun j => fitness (members.get j))
        (RandomSource.below members.length h s).1)
  have hdrawn : (Draws.indices members.length h (max 1 size).toNat).runFrom s =
      (.ok ((RandomSource.below members.length h s).1 :: more), s') := by
    rw [hrounds, Draws.indices, Draws.runFrom_bind_ok (Draws.runFrom_below _ h s),
      Draws.runFrom_bind_ok hmore, Draws.runFrom_pure]
  obtain ⟨_, _, hrun, hlength⟩ := Draws.returns_indices h (max 1 size).toNat s
  rw [hdrawn] at hrun
  cases hrun
  refine ⟨_, _, hdrawn, hlength, winner, hwinner, ?_, ?_⟩
  · rw [tournament, hnonempty, if_neg Bool.false_ne_true,
      Draws.runFrom_bind_ok (Draws.runFrom_choose_below h s),
      Draws.runFrom_bind_ok (Draws.runFrom_ofExcept _ _)]
    exact hcontest
  · intro hunscored j hj
    obtain ⟨_, _, -, -, hall⟩ := hwinner
    exact unscored_or_infinite hunscored (hall j hj)

end Rounds

/-! ## 4. A tournament with ties -/

/-- A source whose indices are on a list; behind it they are the least. -/
structure Lots where
  indices : List Nat

instance : RandomSource Lots where
  below n h s := (⟨s.indices.headD 0 % n, Nat.mod_lt _ h⟩, ⟨s.indices.tail⟩)
  unit s := (0.0, s)

/-- Scores of five candidates.  Those of the second and the fourth are equal, though not the same. -/
def tiedScore : Nat → Option Float
  | 1 => some 0.0
  | 2 => some Number.notANumber
  | 3 => some (-0.0)
  | 4 => some (-Number.infinity)
  | _ => none

/-- Five rounds draw the fourth candidate before the second one, and again later.  It wins: the
second one has no greater key, and the others have the least. -/
theorem tournament_tied : 0 < [0, 1, 2, 3, 4].length ∧ ∃ drawn winner,
    drawn.map (·.val) = [2, 3, 0, 1, 3] ∧
      FirstFittest (fun j => tiedScore ([0, 1, 2, 3, 4].get j)) drawn winner ∧
      (tournament 5 (fun x => .ok (tiedScore x)) [0, 1, 2, 3, 4]).runFrom
          (Lots.mk [2, 3, 0, 1, 3, 4]) = (.ok 3, Lots.mk [4]) ∧ winner.val = 3 := by
  refine ⟨by decide, ?_⟩
  obtain ⟨drawn, s', hdrawn, -, winner, hfirst, hrun, -⟩ :=
    tournament_first_fittest (show 0 < [0, 1, 2, 3, 4].length by decide) 5 tiedScore
      (Lots.mk [2, 3, 0, 1, 3, 4])
  have hlots : (Draws.indices 5 (by decide) 5).runFrom (Lots.mk [2, 3, 0, 1, 3, 4]) =
      (.ok [2, 3, 0, 1, 3], Lots.mk [4]) := rfl
  have hthird : (tournament 5 (fun x => .ok (tiedScore x)) [0, 1, 2, 3, 4]).runFrom
      (Lots.mk [2, 3, 0, 1, 3, 4]) = (.ok 3, Lots.mk [4]) := rfl
  cases hdrawn.symm.trans hlots
  have hwinner : [0, 1, 2, 3, 4].get winner = 3 :=
    Except.ok.inj (congrArg Prod.fst (hrun.symm.trans hthird))
  have hplace : ∀ i : Fin 5, [0, 1, 2, 3, 4].get i = 3 → i.val = 3 := by decide
  exact ⟨_, winner, rfl, hfirst, hthird, hplace winner hwinner⟩

end FormulaEvolution
