/-
# What random computations are sure of

Two ways to speak about a random computation without naming a draw.

* `Draws.Returns P`: from every state of the source it returns a value, and the value satisfies
  `P`.  This rules out failures.
* `Draws.Yields P`: if it returns a value, the value satisfies `P`.  This says nothing about
  failures, and is what is left where an operation may fail for reasons of its own.

Both hold for every source, since a source enters through `RandomSource` only.  They are told for
one draw, and go through sequences by `returns_bind` and `yields_bind`.  Where it matters what has been
drawn, a run is followed draw by draw (`runFrom_bind_ok`).
-/
import FormulaEvolution.Random.Source

namespace FormulaEvolution
namespace Draws

variable {σ α β : Type}

/-- The draws return a value that satisfies `P`, whatever the source. -/
def Returns (draws : Draws σ α) (P : α → Prop) : Prop :=
  ∀ s, ∃ a s', draws.runFrom s = (.ok a, s') ∧ P a

/-- A value that the draws return satisfies `P`, whatever the source. -/
def Yields (draws : Draws σ α) (P : α → Prop) : Prop :=
  ∀ s a s', draws.runFrom s = (.ok a, s') → P a

/-! ## 1. Computations that return -/

theorem returns_pure {P : α → Prop} {a : α} (h : P a) : (pure a : Draws σ α).Returns P :=
  fun s => ⟨a, s, runFrom_pure a s, h⟩

theorem Returns.mono {P Q : α → Prop} {draws : Draws σ α} (h : draws.Returns P)
    (hPQ : ∀ a, P a → Q a) : draws.Returns Q := by
  intro s
  obtain ⟨a, s', hrun, ha⟩ := h s
  exact ⟨a, s', hrun, hPQ a ha⟩

/-- One computation after another returns if the second returns after every value that the first
may leave. -/
theorem returns_bind {P : α → Prop} {Q : β → Prop} {first : Draws σ α} {next : α → Draws σ β}
    (hfirst : first.Returns P) (hnext : ∀ a, P a → (next a).Returns Q) :
    (first >>= next).Returns Q := by
  intro s
  obtain ⟨a, s', hrun, ha⟩ := hfirst s
  obtain ⟨b, s'', hrun', hb⟩ := hnext a ha s'
  exact ⟨b, s'', by simp only [runFrom_bind, hrun, hrun'], hb⟩

/-- A bound on what one of two computations returns is a bound on what the chosen one returns. -/
theorem returns_ite {P : α → Prop} {c : Prop} [Decidable c] {yes no : Draws σ α}
    (hyes : c → yes.Returns P) (hno : ¬c → no.Returns P) : (if c then yes else no).Returns P := by
  split
  · exact hyes ‹_›
  · exact hno ‹_›

theorem returns_ofExcept {P : α → Prop} {result : Except Failure α} {a : α} (h : result = .ok a)
    (ha : P a) : (ofExcept result : Draws σ α).Returns P :=
  fun s => ⟨a, s, by rw [runFrom_ofExcept, h], ha⟩

section Sources

variable [RandomSource σ]

theorem returns_unit : (unit : Draws σ Float).Returns fun _ => True :=
  fun s => ⟨_, _, runFrom_unit s, trivial⟩

theorem returns_below (n : Nat) (h : 0 < n) :
    (below n h : Draws σ (Fin n)).Returns fun _ => True :=
  fun s => ⟨_, _, runFrom_below n h s, trivial⟩

theorem returns_uniform (low high : Float) :
    (uniform low high : Draws σ Float).Returns fun _ => True :=
  returns_bind returns_unit fun _ _ => returns_pure trivial

/-- A draw below a positive bound is below it. -/
theorem returns_int {bound : Int} (h : 0 < bound) :
    (int bound : Draws σ Nat).Returns fun i => (i : Int) < bound := by
  intro s
  obtain ⟨i, s', hi, hrun⟩ := runFrom_int h s
  exact ⟨i, s', hrun, hi⟩

/-- A draw from a span that is not empty is in it. -/
theorem returns_span {low high : Int} (h : low < high) :
    (span low high : Draws σ Int).Returns fun i => low ≤ i ∧ i < high := by
  have hn : 0 < (high - low).toNat := by omega
  intro s
  refine ⟨low + (RandomSource.below (high - low).toNat hn s).1.val,
    (RandomSource.below (high - low).toNat hn s).2, ?_, ?_⟩
  · simp only [span, dif_pos hn, runFrom_bind, runFrom_below, runFrom_pure]
  · have := (RandomSource.below (high - low).toNat hn s).1.isLt
    omega

/-- A draw from a list that is not empty is a member of it. -/
theorem returns_choose {xs : List α} (h : xs ≠ []) :
    (choose xs : Draws σ α).Returns (· ∈ xs) := by
  intro s
  obtain ⟨a, s', ha, hrun⟩ := runFrom_choose h s
  exact ⟨a, s', hrun, ha⟩

end Sources

/-! ## 2. Computations that may fail -/

theorem Returns.yields {P : α → Prop} {draws : Draws σ α} (h : draws.Returns P) :
    draws.Yields P := by
  intro s a s' hrun
  obtain ⟨b, s'', hrun', hb⟩ := h s
  rw [hrun] at hrun'
  simp only [Prod.mk.injEq, Except.ok.injEq] at hrun'
  exact hrun'.1 ▸ hb

theorem yields_pure {P : α → Prop} {a : α} (h : P a) : (pure a : Draws σ α).Yields P :=
  (returns_pure h).yields

theorem yields_throw {P : α → Prop} (failure : Failure) :
    (throw failure : Draws σ α).Yields P := by
  intro s a s' hrun
  simp only [runFrom_throw, Prod.mk.injEq, reduceCtorEq, false_and] at hrun

theorem yields_bind {P : α → Prop} {Q : β → Prop} {first : Draws σ α} {next : α → Draws σ β}
    (hfirst : first.Yields P) (hnext : ∀ a, P a → (next a).Yields Q) :
    (first >>= next).Yields Q := by
  intro s b s'' hrun
  rw [runFrom_bind] at hrun
  split at hrun
  · next a s' hfirst' => exact hnext a (hfirst s a s' hfirst') s' b s'' hrun
  · simp only [Prod.mk.injEq, reduceCtorEq, false_and] at hrun

/-! ## 3. One run -/

/-- A run of a sequence goes on from where its first part has ended. -/
theorem runFrom_bind_ok {first : Draws σ α} {next : α → Draws σ β} {s s' : σ} {a : α}
    (h : first.runFrom s = (.ok a, s')) : (first >>= next).runFrom s = (next a).runFrom s' := by
  rw [runFrom_bind, h]

/-- A run that has come to the end of its first part returns if the second part does. -/
theorem Returns.after {P : β → Prop} {first : Draws σ α} {next : α → Draws σ β} {s s' : σ} {a : α}
    (hnext : (next a).Returns P) (h : first.runFrom s = (.ok a, s')) :
    ∃ b s'', (first >>= next).runFrom s = (.ok b, s'') ∧ P b := by
  obtain ⟨b, s'', hrun, hb⟩ := hnext s'
  exact ⟨b, s'', (runFrom_bind_ok h).trans hrun, hb⟩

/-- **A sequence returns exactly if both of its parts do.** -/
theorem runFrom_bind_ok_iff {first : Draws σ α} {next : α → Draws σ β} {s s' : σ} {b : β} :
    (first >>= next).runFrom s = (.ok b, s') ↔
      ∃ a s₁, first.runFrom s = (.ok a, s₁) ∧ (next a).runFrom s₁ = (.ok b, s') := by
  constructor
  · intro h
    rw [runFrom_bind] at h
    split at h
    · next a s₁ hfirst => exact ⟨a, s₁, hfirst, h⟩
    · cases h
  · rintro ⟨a, s₁, hfirst, hnext⟩
    rw [runFrom_bind_ok hfirst, hnext]

/-- **A sequence fails exactly if its first part does, or returns and the second part fails.** -/
theorem runFrom_bind_error_iff {first : Draws σ α} {next : α → Draws σ β} {s s' : σ}
    {failure : Failure} : (first >>= next).runFrom s = (.error failure, s') ↔
      first.runFrom s = (.error failure, s') ∨
        ∃ a s₁, first.runFrom s = (.ok a, s₁) ∧ (next a).runFrom s₁ = (.error failure, s') := by
  constructor
  · intro h
    rw [runFrom_bind] at h
    split at h
    · next a s₁ hfirst => exact .inr ⟨a, s₁, hfirst, h⟩
    · next other s₁ hfirst =>
      cases h
      exact .inl hfirst
  · rintro (hfirst | ⟨a, s₁, hfirst, hnext⟩)
    · rw [runFrom_bind, hfirst]
    · rw [runFrom_bind_ok hfirst, hnext]

/-- Draw members of a list, one after the other. -/
def chooseEach [RandomSource σ] (xs : List α) : Nat → Draws σ (List α)
  | 0 => return []
  | n + 1 => do
    let x ← choose xs
    let rest ← chooseEach xs n
    return x :: rest

/-- The first of several draws comes before the others. -/
theorem runFrom_chooseEach_cons [RandomSource σ] {xs rest : List α} {x : α} {s s' s'' : σ}
    (hfirst : (choose xs : Draws σ α).runFrom s = (.ok x, s'))
    (hrest : (chooseEach xs rest.length).runFrom s' = (.ok rest, s'')) :
    (chooseEach xs (x :: rest).length).runFrom s = (.ok (x :: rest), s'') := by
  rw [List.length_cons, chooseEach, runFrom_bind_ok hfirst, runFrom_bind_ok hrest, runFrom_pure]

end Draws
end FormulaEvolution
