/-
# Steps that fail

A step breeds candidates one after the other, scores them, and only then puts them in place.  What can go
wrong on the way is a mishap (`Evolution.Mishap`): there is nothing to breed with, one of the candidates
cannot be bred, or one of them cannot be scored.  A mishap has a position, the number of candidates that
went well before.

* Breeding and scoring fail exactly if there is a mishap (`advance_error_iff`), whether the candidates are
  scored in order or all together.
* A step with a mishap fails as it did, and leaves everything in place but the random source
  (`step_of_mishap`): the next generation is put in place after the last thing that can go wrong, and the
  listeners are told after that.
-/
import FormulaEvolution.Proofs.Evolution.Boundaries
import FormulaEvolution.Proofs.Evolution.Stopping

namespace FormulaEvolution

/-! ## 1. Where a sequence fails -/

section Sequences

variable {σ α : Type}

/-- **Draws that are made many times fail at the first time that does.** -/
theorem Draws.drawMany_error_iff {draws : Draws σ α} {failure : Failure} {s' : σ} :
    ∀ {count : Nat} {s : σ}, (drawMany draws count).runFrom s = (.error failure, s') ↔
      ∃ n before s₁, n < count ∧ (drawMany draws n).runFrom s = (.ok before, s₁) ∧
        draws.runFrom s₁ = (.error failure, s')
  | 0, s => by
    constructor
    · intro h
      cases h
    · rintro ⟨n, before, s₁, hlt, -⟩
      exact absurd hlt (Nat.not_lt_zero n)
  | count + 1, s => by
    rw [drawMany, runFrom_bind_error_iff]
    constructor
    · rintro (hfirst | ⟨a, s₁, hfirst, hrest⟩)
      · exact ⟨0, [], s, Nat.succ_pos count, runFrom_pure _ s, hfirst⟩
      · rcases runFrom_bind_error_iff.mp hrest with hrest | ⟨rest, s₂, -, hpure⟩
        · obtain ⟨n, before, s₂, hlt, hbefore, hfails⟩ := drawMany_error_iff.mp hrest
          refine ⟨n + 1, a :: before, s₂, Nat.succ_lt_succ hlt, ?_, hfails⟩
          rw [drawMany, runFrom_bind_ok hfirst, runFrom_bind_ok hbefore, runFrom_pure]
        · cases hpure
    · rintro ⟨n, before, s₁, hlt, hbefore, hfails⟩
      cases n with
      | zero =>
        cases hbefore
        exact .inl hfails
      | succ n =>
        obtain ⟨a, s₂, hfirst, hbefore⟩ := runFrom_bind_ok_iff.mp hbefore
        obtain ⟨rest, s₃, hrest, hpure⟩ := runFrom_bind_ok_iff.mp hbefore
        cases hpure
        refine .inr ⟨a, s₂, hfirst, runFrom_bind_error_iff.mpr (.inl ?_)⟩
        exact drawMany_error_iff.mpr ⟨n, rest, s₁, Nat.lt_of_succ_lt_succ hlt, hrest, hfails⟩

/-- **Scoring fails at the first candidate that cannot be scored.** -/
theorem scoreInOrder_error_iff {e : Evaluator} {failure : Failure} : ∀ {xs : List Individual},
    (scoreInOrder e xs).2 = .error failure ↔
      ∃ n x, xs[n]? = some x ∧ e.fitness x.tree = .error failure ∧
        ∀ y ∈ xs.take n, ∃ fitness, e.fitness y.tree = .ok fitness
  | [] => by
    constructor
    · intro h
      cases h
    · rintro ⟨n, x, hx, -⟩
      cases hx
  | x :: xs => by
    unfold scoreInOrder
    split
    · next other hx =>
      constructor
      · intro h
        cases h
        exact ⟨0, x, rfl, hx, by simp⟩
      · rintro ⟨n, y, hy, hfails, hbefore⟩
        cases n with
        | zero =>
          cases hy
          rw [hx] at hfails
          cases hfails
          rfl
        | succ n =>
          obtain ⟨fitness, hfitness⟩ := hbefore x (by simp)
          rw [hx] at hfitness
          cases hfitness
    · next fitness hx =>
      refine scoreInOrder_error_iff.trans ?_
      constructor
      · rintro ⟨n, y, hy, hfails, hbefore⟩
        refine ⟨n + 1, y, hy, hfails, fun z hz => ?_⟩
        rcases List.mem_cons.mp hz with rfl | hz
        · exact ⟨fitness, hx⟩
        · exact hbefore z hz
      · rintro ⟨n, y, hy, hfails, hbefore⟩
        cases n with
        | zero =>
          cases hy
          rw [hx] at hfails
          cases hfails
        | succ n => exact ⟨n, y, hy, hfails, fun z hz => hbefore z (List.mem_cons_of_mem x hz)⟩

end Sequences

/-! ## 2. Mishaps -/

namespace Evolution

variable {σ τ : Type} [RandomSource σ] {e : Evolution σ} {count n : Nat} {failure : Failure}
  {source : Option σ}

/-- What goes wrong when so many candidates are to be bred: at which of them, how it fails, and what it
leaves of the random source. -/
inductive Mishap (e : Evolution σ) (count : Nat) : Nat → Failure → Option σ → Prop
  /-- A part is missing. -/
  | unequipped {missing : Failure} : 0 < count → e.parts.complete = .error missing →
      Mishap e count 0 e.breedingRefusal e.parts.source
  /-- A candidate cannot be bred; those before it were. -/
  | breeding {q : Equipment} {s₀ s₁ s₂ : σ} {n : Nat} {before : List Individual}
      {failure : Failure} : e.parts.complete = .ok (q, s₀) → n < count →
      (drawMany (breedOne q e.limits e.population) n).runFrom s₀ = (.ok before, s₁) →
      (breedOne q e.limits e.population).runFrom s₁ = (.error failure, s₂) →
      Mishap e count n failure (some s₂)
  /-- All candidates have been bred, and one cannot be scored; those before it can. -/
  | scoring {q : Equipment} {s₀ s₁ : σ} {n : Nat} {bred : List Individual} {x : Individual}
      {failure : Failure} : e.parts.complete = .ok (q, s₀) →
      (drawMany (breedOne q e.limits e.population) count).runFrom s₀ = (.ok bred, s₁) →
      bred[n]? = some x → q.evaluator.fitness x.tree = .error failure →
      (∀ y ∈ bred.take n, ∃ fitness, q.evaluator.fitness y.tree = .ok fitness) →
      Mishap e count n failure (some s₁)

/-- Mishaps concern candidates that are to be bred. -/
theorem Mishap.lt (h : e.Mishap count n failure source) : n < count := by
  cases h with
  | unequipped hpos _ => exact hpos
  | breeding _ hlt _ _ => exact hlt
  | scoring _ hbred hx _ _ =>
    have hcount := (Draws.yields_drawMany (P := fun _ => True) (fun _ _ _ _ => trivial) count _ _ _
      hbred).1
    have hlt := (List.getElem?_eq_some_iff.mp hx).1
    rwa [hcount] at hlt

/-- With all parts there, breeding fails if the draws do, or the scoring of what they have given. -/
theorem offspring_error_of_complete {q : Equipment} {s₀ : σ}
    (hcomplete : e.parts.complete = .ok (q, s₀)) {k : Nat} :
    e.offspring (k + 1) = (.error failure, source) ↔
      ∃ s₁, source = some s₁ ∧
        ((drawMany (breedOne q e.limits e.population) (k + 1)).runFrom s₀ = (.error failure, s₁) ∨
          ∃ bred, (drawMany (breedOne q e.limits e.population) (k + 1)).runFrom s₀ =
            (.ok bred, s₁) ∧ (scoreInOrder q.evaluator bred).2 = .error failure) := by
  simp only [offspring, hcomplete]
  cases hdrawn : (drawMany (breedOne q e.limits e.population) (k + 1)).runFrom s₀ with
  | mk drawn s₁ =>
    cases drawn with
    | error other =>
      constructor
      · intro h
        cases h
        exact ⟨s₁, rfl, .inl rfl⟩
      · rintro ⟨_, rfl, h | ⟨_, h, -⟩⟩
        · cases h
          rfl
        · cases h
    | ok bred =>
      have hmode := scoreAll_snd q.evaluator e.limits.scoresTogether bred
      constructor
      · intro h
        obtain ⟨hscored, hsource⟩ := Prod.mk.inj h
        refine ⟨s₁, hsource.symm, .inr ⟨bred, rfl, hmode.symm.trans ?_⟩⟩
        simp only [bind, Except.bind] at hscored
        split at hscored
        · cases hscored
        · next hall =>
          cases hscored
          rw [hall]
      · rintro ⟨_, rfl, h | ⟨_, h, hscored⟩⟩
        · cases h
        · cases h
          rw [← hmode] at hscored
          simp only [bind, Except.bind]
          split
          · next hall =>
            rw [hall] at hscored
            cases hscored
          · next hall =>
            rw [hall] at hscored
            cases hscored
            rfl

/-- **Candidates are not bred and scored exactly if there is a mishap**, scored in order or all
together. -/
theorem offspring_error_iff :
    e.offspring count = (.error failure, source) ↔ ∃ n, e.Mishap count n failure source := by
  cases count with
  | zero =>
    constructor
    · intro h
      cases h
    · rintro ⟨n, h⟩
      exact absurd h.lt (Nat.not_lt_zero n)
  | succ k =>
    cases hcomplete : e.parts.complete with
    | error missing =>
      have hrefused : e.offspring (k + 1) = (.error e.breedingRefusal, e.parts.source) := by
        simp only [offspring, hcomplete]
      rw [hrefused]
      constructor
      · intro h
        cases h
        exact ⟨0, .unequipped (Nat.succ_pos k) hcomplete⟩
      · rintro ⟨n, h⟩
        cases h with
        | unequipped _ _ => rfl
        | breeding hparts => cases hcomplete.symm.trans hparts
        | scoring hparts => cases hcomplete.symm.trans hparts
    | ok parts =>
      obtain ⟨q, s₀⟩ := parts
      rw [offspring_error_of_complete hcomplete]
      constructor
      · rintro ⟨s₁, rfl, hdrawn | ⟨bred, hdrawn, hscored⟩⟩
        · obtain ⟨n, before, s₂, hlt, hbefore, hfails⟩ := Draws.drawMany_error_iff.mp hdrawn
          exact ⟨n, .breeding hcomplete hlt hbefore hfails⟩
        · obtain ⟨n, x, hx, hfails, hbefore⟩ := scoreInOrder_error_iff.mp hscored
          exact ⟨n, .scoring hcomplete hdrawn hx hfails hbefore⟩
      · rintro ⟨n, h⟩
        cases h with
        | unequipped _ hmissing => cases hcomplete.symm.trans hmissing
        | breeding hparts hlt hbefore hfails =>
          cases hcomplete.symm.trans hparts
          exact ⟨_, rfl, .inl (Draws.drawMany_error_iff.mpr ⟨n, _, _, hlt, hbefore, hfails⟩)⟩
        | scoring hparts hdrawn hx hfails hbefore =>
          cases hcomplete.symm.trans hparts
          exact ⟨_, rfl, .inr ⟨_, hdrawn, scoreInOrder_error_iff.mpr ⟨n, _, hx, hfails, hbefore⟩⟩⟩

/-! ## 3. Steps -/

/-- **An advance fails exactly if there is a mishap.** -/
theorem advance_error_iff {e' : Evolution σ} : e.advance = (.error failure, e') ↔
    ∃ n source, e.Mishap e.offspringCount n failure source ∧ e' = e.withSource source := by
  constructor
  · intro h
    unfold advance at h
    split at h
    next bred source hbred =>
      simp only at h
      split at h
      · cases h
        obtain ⟨n, hmishap⟩ := offspring_error_iff.mp hbred
        exact ⟨n, source, hmishap, rfl⟩
      · cases h
  · rintro ⟨n, source, hmishap, rfl⟩
    have hbred := offspring_error_iff.mpr ⟨n, hmishap⟩
    simp only [advance, hbred]

/-- **A step with a mishap fails as it did and puts nothing in place.**  Whatever the evolution, the
surroundings, the position of the mishap and the way in which candidates are scored: the step fails with
the failure of the mishap, and the population with its trees and fitness values, the number of the
generation, the best candidate, the history, the phase, the limits, the wish to stop and who listens are
as they were.  Nobody has been told anything. -/
theorem step_of_mishap (h : e.Mishap e.offspringCount n failure source) (s : Surroundings τ) (t : τ) :
    ∃ e', e.step s t = (.error failure, e', t) ∧
      (∀ log, e.step s.logged (t, log) = (.error failure, e', t, log)) ∧
      e'.population = e.population ∧ e'.generation = e.generation ∧ e'.best = e.best ∧
      e'.history = e.history ∧ e'.phase = e.phase ∧ e'.limits = e.limits ∧
      e'.stopRequested = e.stopRequested ∧ e'.listeners = e.listeners := by
  have hadvance : e.advance = (.error failure, e.withSource source) :=
    advance_error_iff.mpr ⟨n, source, h, rfl⟩
  refine ⟨e.withSource source, ?_, fun log => ?_, rfl, rfl, rfl, rfl, rfl, rfl, rfl, rfl⟩
  · simp only [step, hadvance]
  · simp only [step, hadvance]

/-- A compiled evolution of a constant breeds the input, whose name cannot be written in a compiled
expression: the step fails, and the constant is still the population. -/
theorem step_of_mishap_braced : ∃ (e₀ e e' : Evolution Tape) (n : Nat) (source : Option Tape),
    Evolution.braced [0.9, 0.5, 0.95] = .ok e₀ ∧ e₀.start = (.ok (), e) ∧
      e.Mishap e.offspringCount n (.invalid (.template .unclosedField)) source ∧
      e.step .silent () = (.error (.invalid (.template .unclosedField)), e', ()) ∧
      e'.population = e.population := by
  have hruns : ((Evolution.braced [0.9, 0.5, 0.95]).toOption.any fun e₀ => e₀.start.1.toBool &&
      e₀.start.2.advance.1 = .error (.invalid (.template .unclosedField))) = true := by
    decide +kernel
  cases hbraced : Evolution.braced [0.9, 0.5, 0.95] with
  | error failure => simp [hbraced, Except.toOption] at hruns
  | ok e₀ =>
    simp only [hbraced, Except.toOption, Option.any_some, Bool.and_eq_true,
      decide_eq_true_eq] at hruns
    obtain ⟨hstarts, hfails⟩ := hruns
    have hstart : e₀.start = (.ok (), e₀.start.2) := Prod.ext (Except.eq_ok_of_toBool hstarts) rfl
    obtain ⟨n, source, hmishap, -⟩ := advance_error_iff.mp (Prod.ext hfails rfl)
    obtain ⟨e', hstep, -, hpopulation, -⟩ := step_of_mishap hmishap .silent ()
    exact ⟨e₀, e₀.start.2, e', n, source, rfl, hstart, hmishap, hstep, hpopulation⟩

end Evolution
end FormulaEvolution
