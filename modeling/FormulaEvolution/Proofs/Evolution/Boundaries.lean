/-
# From boundary to boundary

How a run that returns has gone, and which of its listeners have heard what (`run_course`).

At a boundary three questions are asked in order: is the target reached, is a stop pending, are no
generations left?  `ending_eq` says what the answers lead to.  A boundary is `Open` if all of them
are denied, and a `Course` is a sequence of open boundaries with a successful step after each.  A
run goes along a course to a boundary that is not open, whichever listeners ask for a stop, change
who listens or make the signal ask for one.

A step counts the generation up and leaves the limits alone, so the number of boundaries is the
number of the generation.

What listeners hear is told by surroundings that keep a log (`Surroundings.logged`) and behave
the same otherwise: a run that returns does so with a log as well.
-/
import FormulaEvolution.Proofs.Evolution.Lineage

namespace FormulaEvolution
namespace Evolution

variable {σ τ : Type}

/-! ## 1. Boundaries -/

/-- The best candidate so far is as good as the target asks for. -/
def Reaches (e : Evolution σ) : Prop :=
  ∃ target best, e.limits.target = some target ∧ e.best = some best ∧
    fitnessKey best.fitness >= target

/-- A stop is pending: it has been asked for, or the signal asks for one. -/
def Pending (s : Surroundings τ) (e : Evolution σ) (t : τ) : Prop :=
  e.stopRequested = true ∨ (s.signal t).1 = true

/-- No generations are left. -/
def Spent (e : Evolution σ) : Prop := e.limits.maxGenerations ≤ e.generation

/-- A boundary at which a run does not end. -/
structure Open (s : Surroundings τ) (e : Evolution σ) (t : τ) : Prop where
  short : ¬e.Reaches
  undisturbed : ¬Pending s e t
  unspent : ¬e.Spent

theorem targetReached_iff (e : Evolution σ) : e.targetReached = true ↔ e.Reaches := by
  unfold targetReached Reaches
  split
  · next target best htarget hbest => simp [htarget, hbest]
  · next hnone =>
    simp only [Bool.false_eq_true, false_iff, not_exists, not_and]
    intro target best htarget hbest
    exact absurd hbest (hnone target best htarget)

theorem stopDue_iff (s : Surroundings τ) (e : Evolution σ) (t : τ) :
    (stopDue s e t).1 = true ↔ Pending s e t := by
  unfold stopDue Pending
  cases e.stopRequested <;> simp

open Classical in
/-- **What a boundary leads to.** -/
theorem ending_eq (s : Surroundings τ) (e : Evolution σ) (t : τ) :
    (ending s e t).1 = if e.Reaches then some .converged
      else if Pending s e t then some .stopped
      else if e.Spent then some .exhausted
      else none := by
  unfold ending
  by_cases hreaches : e.Reaches
  · rw [if_pos ((targetReached_iff e).mpr hreaches), if_pos hreaches]
  · rw [if_neg fun h => hreaches ((targetReached_iff e).mp h), if_neg hreaches]
    by_cases hpending : Pending s e t
    · simp only [(stopDue_iff s e t).mpr hpending, hpending, if_true]
    · have hdue : (stopDue s e t).1 = false :=
        Bool.eq_false_iff.mpr fun h => hpending ((stopDue_iff s e t).mp h)
      simp only [hdue, hpending, Bool.false_eq_true, if_false]
      by_cases hspent : e.Spent
      · rw [if_pos hspent]
        exact congrArg Prod.fst (if_pos hspent)
      · rw [if_neg hspent]
        exact congrArg Prod.fst (if_neg hspent)

/-- A run goes on exactly at open boundaries. -/
theorem ending_eq_none_iff (s : Surroundings τ) (e : Evolution σ) (t : τ) :
    (ending s e t).1 = none ↔ Open s e t := by
  rw [ending_eq]
  constructor
  · intro h
    split_ifs at h with hreaches hpending hspent
    exact ⟨hreaches, hpending, hspent⟩
  · rintro ⟨hreaches, hpending, hspent⟩
    rw [if_neg hreaches, if_neg hpending, if_neg hspent]

/-- The phase that a run ends in answers the three questions in order. -/
theorem ending_phase {s : Surroundings τ} {e : Evolution σ} {t t' : τ} {phase : Phase}
    (h : ending s e t = (some phase, t')) :
    (phase = .converged ↔ e.Reaches) ∧ (phase = .stopped ↔ ¬e.Reaches ∧ Pending s e t) ∧
      (phase = .exhausted ↔ ¬e.Reaches ∧ ¬Pending s e t) ∧ (phase = .exhausted → e.Spent) := by
  have hphase := ending_eq s e t
  rw [h] at hphase
  split_ifs at hphase with hreaches hpending hspent
  · obtain rfl := Option.some.inj hphase
    simp [hreaches]
  · obtain rfl := Option.some.inj hphase
    simp [hreaches, hpending]
  · obtain rfl := Option.some.inj hphase
    simp [hreaches, hpending, hspent]

/-! ## 2. Courses -/

variable [RandomSource σ] {s : Surroundings τ} {e e' last : Evolution σ} {t t' t₁ : τ}
variable {boundaries : List (Evolution σ)}

/-- Open boundaries, one after the other, with a successful step after each; then the evolution and
the surroundings at the boundary behind the last step. -/
inductive Course (s : Surroundings τ) :
    List (Evolution σ) → Evolution σ → τ → Evolution σ → τ → Prop
  | here (e : Evolution σ) (t : τ) : Course s [] e t e t
  | onward {boundaries : List (Evolution σ)} {e e₁ last : Evolution σ} {t t₁ t₂ : τ} :
      Open s e t → e.step s (ending s e t).2 = (.ok (), e₁, t₁) →
      Course s boundaries e₁ t₁ last t₂ → Course s (e :: boundaries) e t last t₂

/-- A step that succeeds counts the generation up and keeps the limits. -/
theorem step_counts (h : e.step s t = (.ok (), e', t')) :
    e'.generation = e.generation + 1 ∧ e'.limits = e.limits := by
  obtain ⟨next, stop, listeners, hadvance, rfl⟩ := step_ok h
  obtain ⟨bred, source, -, rfl⟩ := advance_ok hadvance
  exact ⟨rfl, rfl⟩

/-- A course has as many boundaries as it counts generations. -/
theorem Course.counts (h : Course s boundaries e t last t₁) :
    last.generation = e.generation + boundaries.length ∧ last.limits = e.limits := by
  induction h with
  | here e t => exact ⟨rfl, rfl⟩
  | onward hopen hstep _ ih =>
    obtain ⟨hgeneration, hlimits⟩ := step_counts hstep
    refine ⟨?_, ih.2.trans hlimits⟩
    rw [ih.1, hgeneration, List.length_cons]
    omega

/-- A course goes no further than there are generations left. -/
theorem Course.within (h : Course s boundaries e t last t₁)
    (hle : (e.generation : Int) ≤ e.limits.maxGenerations) :
    (last.generation : Int) ≤ e.limits.maxGenerations := by
  induction h with
  | here e t => exact hle
  | onward hopen hstep _ ih =>
    obtain ⟨hgeneration, hlimits⟩ := step_counts hstep
    have hleft := hopen.unspent
    rw [Spent] at hleft
    rw [hlimits] at ih
    exact ih (by omega)

/-- **A run that returns has gone along a course** to a boundary that is not open. -/
theorem course_of_runOn : ∀ {bound : Nat} {e : Evolution σ} {t : τ},
    (e.generation : Int) + bound = e.limits.maxGenerations →
    e.runOn s bound t = (.ok (), e', t') → ∃ boundaries last t₁ phase,
      Course s boundaries e t last t₁ ∧ ending s last t₁ = (some phase, t') ∧
        e' = last.finish phase
  | 0, e, t, hbound, h => by
    have hclosed : (ending s e t).1 ≠ none := by
      intro hnone
      have hleft := ((ending_eq_none_iff s e t).mp hnone).unspent
      rw [Spent] at hleft
      omega
    obtain ⟨phase, hphase⟩ := Option.ne_none_iff_exists'.mp hclosed
    simp only [runOn, hphase, Option.getD_some, Prod.mk.injEq, true_and] at h
    exact ⟨[], e, t, phase, .here e t, Prod.ext hphase h.2, h.1.symm⟩
  | bound + 1, e, t, hbound, h => by
    unfold runOn at h
    split at h
    · next phase t₁ hending =>
      simp only [Prod.mk.injEq, true_and] at h
      obtain ⟨rfl, rfl⟩ := h
      exact ⟨[], e, t, phase, .here e t, hending, rfl⟩
    · next t₁ hending =>
      have hopen : Open s e t := (ending_eq_none_iff s e t).mp (by rw [hending])
      split at h
      · simp at h
      · next e₁ t₂ hstep =>
        obtain ⟨hgeneration, hlimits⟩ := step_counts hstep
        obtain ⟨boundaries, last, t₃, phase, hcourse, hlast⟩ :=
          course_of_runOn (by rw [hgeneration, hlimits]; omega) h
        have hstep' : e.step s (ending s e t).2 = (.ok (), e₁, t₂) := by rw [hending, hstep]
        exact ⟨e :: boundaries, last, t₃, phase, .onward hopen hstep' hcourse, hlast⟩

/-- A run goes along the course that there is, if its bound allows for it. -/
theorem Course.runOn (h : Course s boundaries e t last t₁) {phase : Phase}
    (hending : ending s last t₁ = (some phase, t')) :
    ∀ {bound : Nat}, boundaries.length ≤ bound →
      e.runOn s bound t = (.ok (), last.finish phase, t') := by
  induction h with
  | here e t =>
    intro bound _
    cases bound with
    | zero => simp [Evolution.runOn, hending]
    | succ bound => simp [Evolution.runOn, hending]
  | @onward boundaries e e₁ last t t₁ t₂ hopen hstep _ ih =>
    intro bound hbound
    cases bound with
    | zero => simp at hbound
    | succ bound =>
      have hnone : ending s e t = (none, (ending s e t).2) :=
        Prod.ext ((ending_eq_none_iff s e t).mpr hopen) rfl
      rw [Evolution.runOn, hnone]
      simp only [hstep]
      exact ih hending (by simpa using hbound)

/-! ## 3. What listeners hear -/

/-- A call of a listener: its name and the event. -/
abbrev Call := String × GenerationEvent

end Evolution

/-- The same surroundings, which keep a log of who has been told what. -/
def Surroundings.logged {τ : Type} (s : Surroundings τ) :
    Surroundings (τ × List Evolution.Call) where
  hear name event t :=
    ((s.hear name event t.1).1, (s.hear name event t.1).2, t.2 ++ [(name, event)])
  signal t := ((s.signal t.1).1, (s.signal t.1).2, t.2)

namespace Evolution

variable [RandomSource σ] {s : Surroundings τ} {e e' last : Evolution σ} {t t' t₁ : τ}
variable {boundaries : List (Evolution σ)}

omit [RandomSource σ] in
theorem hear_logged (s : Surroundings τ) (name : String) (event : GenerationEvent) (t : τ)
    (log : List Call) : s.logged.hear name event (t, log) =
      ((s.hear name event t).1, (s.hear name event t).2, log ++ [(name, event)]) := rfl

omit [RandomSource σ] in
/-- Everyone who was to be told has been told, in order. -/
theorem tell_logged {event : GenerationEvent} {names : List String} :
    ∀ {e : Evolution σ} {t : τ} (log : List Call), tell s event names e t = (.ok (), e', t') →
      tell s.logged event names e (t, log) = (.ok (), e', t', log ++ names.map (·, event)) := by
  induction names with
  | nil =>
    intro e t log h
    simp only [tell, Prod.mk.injEq, true_and] at h ⊢
    simp [h]
  | cons name names ih =>
    intro e t log h
    simp only [tell] at h
    simp only [tell, hear_logged]
    split at h
    · simp at h
    · next e₁ hheeded =>
      have hheeded' : e.heed (s.hear name event t).1 = (.ok (), e₁) := hheeded
      simp only [hheeded']
      rw [ih (log ++ [(name, event)]) h, List.map_cons, ← List.append_cons]

omit [RandomSource σ] in
theorem ending_logged (s : Surroundings τ) (e : Evolution σ) (t : τ) (log : List Call) :
    ending s.logged e (t, log) = ((ending s e t).1, (ending s e t).2, log) := by
  unfold ending stopDue
  simp only [Surroundings.logged]
  split_ifs <;> rfl

omit [RandomSource σ] in
theorem open_logged {log : List Call} (h : Open s e t) : Open s.logged e (t, log) :=
  ⟨h.short, h.undisturbed, h.unspent⟩

/-- What a step of an evolution tells: the event of the next generation, to all who listen. -/
theorem step_logged (log : List Call) (h : e.step s t = (.ok (), e', t')) :
    ∃ event : GenerationEvent, event.generation = e.generation + 1 ∧
      e.step s.logged (t, log) = (.ok (), e', t', log ++ e.listeners.map (·, event)) := by
  unfold step at h ⊢
  split at h
  · simp at h
  · next next hadvance =>
    obtain ⟨bred, source, -, rfl⟩ := advance_ok hadvance
    exact ⟨_, rfl, tell_logged log h⟩

/-- The generations of the events that a listener has been told of, in order. -/
def heard (name : String) (calls : List Call) : List Int :=
  (calls.filter (·.1 = name)).map (·.2.generation)

omit [RandomSource σ] in
/-- Whoever is told of an event is told as often as its name is listed. -/
theorem heard_map (name : String) (names : List String) (event : GenerationEvent) :
    heard name (names.map (·, event)) = List.replicate (names.count name) event.generation := by
  induction names with
  | nil => rfl
  | cons other names ih =>
    rw [heard] at ih ⊢
    by_cases hsame : other = name
    · simp [hsame, ih, List.replicate_succ]
    · simp [hsame, ih, List.count_cons_of_ne hsame]

theorem heard_append (name : String) (calls calls' : List Call) :
    heard name (calls ++ calls') = heard name calls ++ heard name calls' := by
  simp [heard]

/-- **Along a course whoever is listed `k` times at every boundary is told `k` times of each
generation**, in order. -/
theorem Course.logged (h : Course s boundaries e t last t₁) : ∀ log : List Call,
    ∃ calls, Course s.logged boundaries e (t, log) last (t₁, log ++ calls) ∧
      ∀ name k, (∀ b ∈ boundaries, b.listeners.count name = k) → heard name calls =
        (List.range boundaries.length).flatMap
          fun i : Nat => List.replicate k ((e.generation : Int) + i + 1) := by
  induction h with
  | here e t => exact fun log => ⟨[], by simpa using .here e (t, log), fun name k _ => rfl⟩
  | @onward boundaries e e₁ last t t₁ t₂ hopen hstep hcourse ih =>
    intro log
    obtain ⟨event, hevent, hlogged⟩ := step_logged log hstep
    obtain ⟨calls, hcalls, hheard⟩ := ih (log ++ e.listeners.map (·, event))
    rw [List.append_assoc] at hcalls
    refine ⟨e.listeners.map (·, event) ++ calls, ?_, ?_⟩
    · refine .onward (open_logged hopen) ?_ hcalls
      rw [ending_logged]
      exact hlogged
    · intro name k hlisted
      have hgeneration := (step_counts hstep).1
      rw [heard_append, heard_map, hlisted e List.mem_cons_self, hevent,
        hheard name k fun b hb => hlisted b (List.mem_cons_of_mem e hb), hgeneration]
      have hnext : ∀ i : Nat, ((e.generation + 1 : Nat) : Int) + i + 1 =
          (e.generation : Int) + i.succ + 1 := by
        intro i
        omega
      rw [List.length_cons, List.range_succ_eq_map, List.flatMap_cons, List.flatMap_map]
      simp only [hnext, Int.natCast_zero, Int.add_zero]

/-! ## 4. Runs -/

/-- A start that succeeds counts from zero, within limits that have been checked. -/
theorem start_counts (h : e.start = (.ok (), e')) :
    e'.generation = 0 ∧ e'.limits = e.limits ∧ 0 ≤ e.limits.maxGenerations := by
  obtain ⟨q, source, created, source', p, hready, -, -, rfl⟩ := start_ok h
  exact ⟨rfl, rfl, (Limits.check_ok_iff.mp (ready_ok hready).2).2.1⟩

/-- **How a run that returns has gone.**  From the first generation it went along a course, with a
step for every generation and no more of them than allowed.  Behind the last step it was at a
boundary at which it ended: converged exactly if the target was reached there, else stopped exactly
if a stop was pending, else exhausted with all generations used; a request to stop is used up.
Whoever was listed `k` times at every boundary, be it once, was told `k` times of each generation
from the first to the last, in order. -/
theorem run_course (h : e.run s t = (.ok (), e', t')) :
    ∃ first boundaries last t₁, e.start = (.ok (), first) ∧
      Course s boundaries { first with phase := .running } t last t₁ ∧
      e' = last.finish e'.phase ∧
      boundaries.length = e'.generation ∧ (e'.generation : Int) ≤ e.limits.maxGenerations ∧
      (e'.phase = .converged ↔ last.Reaches) ∧
      (e'.phase = .stopped ↔ ¬last.Reaches ∧ Pending s last t₁) ∧
      (e'.phase = .exhausted ↔ ¬last.Reaches ∧ ¬Pending s last t₁) ∧
      (e'.phase = .exhausted → (e'.generation : Int) = e.limits.maxGenerations) ∧
      ∃ calls, e.run s.logged (t, []) = (.ok (), e', t', calls) ∧
        ∀ name k, (∀ b ∈ boundaries, b.listeners.count name = k) →
          heard name calls =
            (List.range e'.generation).flatMap fun i : Nat => List.replicate k ((i : Int) + 1) := by
  unfold run at h
  split at h
  · simp at h
  · next first hstart =>
    obtain ⟨hzero, hlimits, hnonneg⟩ := start_counts hstart
    obtain ⟨boundaries, last, t₁, phase, hcourse, hending, rfl⟩ := course_of_runOn (by
      simp only [remaining, hzero, hlimits]
      omega) h
    obtain ⟨hgeneration, hlast⟩ := hcourse.counts
    obtain ⟨calls, hlogged, hheard⟩ := hcourse.logged []
    obtain ⟨hconverged, hstopped, hexhausted, hspent⟩ := ending_phase hending
    have hle := hcourse.within (by rw [hzero, hlimits]; exact hnonneg)
    rw [hlimits] at hle hlast
    have hlength : boundaries.length = last.generation := by
      rw [hgeneration, hzero, Nat.zero_add]
    refine ⟨first, boundaries, last, t₁, hstart, hcourse, rfl, hlength, hle, hconverged, hstopped,
      hexhausted, ?_, calls, ?_, ?_⟩
    · intro hphase
      have hge := hspent hphase
      rw [Spent, hlast] at hge
      exact Int.le_antisymm hle hge
    · have hending' : ending s.logged last (t₁, calls) = (some phase, t', calls) := by
        rw [ending_logged, hending]
      have hbound : boundaries.length ≤ remaining { first with phase := .running } := by
        simp only [remaining, hzero, hlimits]
        omega
      simp only [run, hstart]
      exact hlogged.runOn hending' hbound
    · intro name k hlisted
      rw [hheard name k hlisted, hlength]
      simp only [hzero, Int.natCast_zero, Int.zero_add]
      rfl

end Evolution

/-- Surroundings in which everyone who listens asks for a stop in one generation. -/
def Surroundings.haltingAt (generation : Int) : Surroundings Unit where
  hear _ event t := ({ stop := event.generation = generation }, t)
  signal t := (false, t)

/-- The small evolution is stopped by a listener after two generations, along a course of two
boundaries, and the listener has been told of both. -/
theorem Evolution.run_course_small : ∃ (e₀ e : Evolution Steady) (calls : List Call),
    Evolution.small = .ok e₀ ∧ (e₀.listen "watch").run (.haltingAt 2) () = (.ok (), e, ()) ∧
      e.phase = .stopped ∧ e.generation = 2 ∧
      (e₀.listen "watch").run (Surroundings.haltingAt 2).logged ((), []) =
        (.ok (), e, (), calls) ∧ heard "watch" calls = [1, 2] := by
  have hruns : (Evolution.small.toOption.any fun e₀ =>
      let ran := (e₀.listen "watch").run (.haltingAt 2) ()
      let logged := (e₀.listen "watch").run (Surroundings.haltingAt 2).logged ((), [])
      ran.1.toBool && ran.2.1.phase = .stopped && ran.2.1.generation = 2 &&
        heard "watch" logged.2.2.2 = [1, 2]) = true := by
    decide +kernel
  cases hsmall : Evolution.small with
  | error failure => simp [hsmall, Except.toOption] at hruns
  | ok e₀ =>
    simp only [hsmall, Except.toOption, Option.any_some, Bool.and_eq_true,
      decide_eq_true_eq] at hruns
    obtain ⟨⟨⟨hok, hstopped⟩, htwo⟩, hheard⟩ := hruns
    have hrun : (e₀.listen "watch").run (.haltingAt 2) () =
        (.ok (), ((e₀.listen "watch").run (.haltingAt 2) ()).2.1, ()) :=
      Prod.ext (Except.eq_ok_of_toBool hok) rfl
    obtain ⟨_, _, _, _, -, -, -, -, -, -, -, -, -, calls, hcalls, -⟩ := run_course hrun
    rw [hcalls] at hheard
    exact ⟨e₀, _, calls, rfl, hrun, hstopped, htwo, hcalls, hheard⟩

end FormulaEvolution
