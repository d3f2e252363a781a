/-
# What a run cannot see, and what it leaves alone

Three facts about runs that do not depend on what is run.

* A start sees the parts and the limits of an evolution and nothing else (`start_alike`): all that
  tells of earlier runs is overwritten before it is read.
* Whatever comes of a run, it changes no limit and no part but the random source
  (`run_sameSettings`).  A start and an advance leave the listeners and the wish to stop alone as well
  (`start_standing`, `advance_standing`); these are changed by listeners only.
* A run goes the same way in surroundings that do the same and keep more in their state
  (`run_mimics`).
-/
import FormulaEvolution.Proofs.Evolution.Lineage

namespace FormulaEvolution
namespace Evolution

variable {σ τ : Type}

/-! ## 1. What a start sees -/

section Starts

variable [RandomSource σ]

/-- Whether a start succeeds, and how it fails otherwise, is up to the parts and the limits. -/
theorem start_result (e : Evolution σ) : e.start.1 = (e.ready >>= fun parts =>
    ((drawMany (createOne parts.1 e.limits) e.limits.populationSize.toNat).runFrom parts.2).1 >>=
      fun individuals => (scoreAll parts.1.evaluator e.limits.scoresTogether individuals).2) := by
  unfold start
  cases e.ready with
  | error failure => rfl
  | ok parts =>
    have hlimits : e.restart.limits = e.limits := rfl
    simp only [hlimits, bind, Except.bind]
    cases ((drawMany (createOne parts.1 e.limits) e.limits.populationSize.toNat).runFrom
      parts.2).1 with
    | error failure => rfl
    | ok individuals =>
      simp only [withSource, hlimits]
      cases (scoreAll parts.1.evaluator e.limits.scoresTogether individuals).2 with
      | error failure => rfl
      | ok _ => rfl

/-- **A start sees the parts and the limits alone**: where they are the same, it fails in the same way
or puts the same first generation in place. -/
theorem start_alike (e e' : Evolution σ) (hparts : e'.parts = e.parts)
    (hlimits : e'.limits = e.limits) :
    (∃ failure next next', e.start = (.error failure, next) ∧ e'.start = (.error failure, next')) ∨
    ∃ source p, e.start = (.ok (), e.founded source p) ∧
      e'.start = (.ok (), e'.founded source p) := by
  have hready : e'.ready = e.ready := by rw [ready, ready, hparts, hlimits]
  have hresult : e'.start.1 = e.start.1 := by
    rw [start_result, start_result, hready, hlimits]
  cases hstart : e.start with
  | mk result next =>
    rw [hstart] at hresult
    cases result with
    | error failure =>
      exact .inl ⟨failure, next, e'.start.2, rfl, Prod.ext hresult rfl⟩
    | ok _ =>
      obtain ⟨q, source, created, source', p, hparts', hcreated, hscored, rfl⟩ := start_ok hstart
      rw [← hready] at hparts'
      rw [← hlimits] at hcreated
      exact .inr ⟨source', p, rfl, start_of_draws hparts' hcreated hscored⟩

end Starts

/-! ## 2. What a run leaves alone -/

/-- The same limits and the same parts, of the random sources only that there is one or not. -/
structure SameSettings (e e' : Evolution σ) : Prop where
  others : ∀ source, (e.withSource source).parts = (e'.withSource source).parts
  sourced : e.parts.source.isSome = e'.parts.source.isSome
  limits : e.limits = e'.limits

/-- The same settings, wish to stop and listeners. -/
structure SameStanding (e e' : Evolution σ) : Prop extends SameSettings e e' where
  stopRequested : e.stopRequested = e'.stopRequested
  listeners : e.listeners = e'.listeners

theorem SameSettings.trans {e₁ e₂ e₃ : Evolution σ} (h : e₁.SameSettings e₂)
    (h' : e₂.SameSettings e₃) : e₁.SameSettings e₃ :=
  ⟨fun source => (h.others source).trans (h'.others source), h.sourced.trans h'.sourced,
    h.limits.trans h'.limits⟩

theorem sourced_of_complete {p : Parts σ} {q : Equipment} {source : σ}
    (h : p.complete = .ok (q, source)) : p.source.isSome = true := by
  rw [Parts.complete_ok h]
  rfl

variable [RandomSource σ]

/-- **A start leaves the settings, the listeners and the wish to stop alone**, whether or not it
succeeds. -/
theorem start_standing (e : Evolution σ) : e.SameStanding e.start.2 := by
  unfold start
  split
  · exact ⟨⟨fun _ => rfl, rfl, rfl⟩, rfl, rfl⟩
  · next q source hready =>
    have hsourced := sourced_of_complete (ready_ok hready).1
    simp only
    split
    · exact ⟨⟨fun _ => rfl, hsourced, rfl⟩, rfl, rfl⟩
    · split <;> exact ⟨⟨fun _ => rfl, hsourced, rfl⟩, rfl, rfl⟩

/-- Breeding leaves a source where there was one. -/
theorem offspring_sourced (e : Evolution σ) (count : Nat) :
    e.parts.source.isSome = (e.offspring count).2.isSome := by
  unfold offspring
  split
  · rfl
  · rfl
  · next hcomplete => exact sourced_of_complete hcomplete

/-- **So does an advance.** -/
theorem advance_standing (e : Evolution σ) : e.SameStanding e.advance.2 := by
  have hsourced := offspring_sourced e e.offspringCount
  unfold advance
  simp only
  split <;> exact ⟨⟨fun _ => rfl, hsourced, rfl⟩, rfl, rfl⟩

theorem step_sameSettings (s : Surroundings τ) (e : Evolution σ) (t : τ) :
    e.SameSettings (e.step s t).2.1 := by
  have hadvance := (advance_standing e).toSameSettings
  unfold step
  split
  · next hfailed =>
    rw [hfailed] at hadvance
    exact hadvance
  · next next hdone =>
    rw [hdone] at hadvance
    obtain ⟨stop, listeners, htold⟩ := announce_eq s next t
    rw [htold]
    exact ⟨hadvance.others, hadvance.sourced, hadvance.limits⟩

theorem runOn_sameSettings (s : Surroundings τ) : ∀ (bound : Nat) (e : Evolution σ) (t : τ),
    e.SameSettings (e.runOn s bound t).2.1
  | 0, e, t => ⟨fun _ => rfl, rfl, rfl⟩
  | bound + 1, e, t => by
    unfold runOn
    split
    · exact ⟨fun _ => rfl, rfl, rfl⟩
    · next t' _ =>
      have hstep := step_sameSettings s e t'
      split
      · next hfailed =>
        rw [hfailed] at hstep
        exact hstep
      · next e' t'' hdone =>
        rw [hdone] at hstep
        exact hstep.trans (runOn_sameSettings s bound e' t'')

/-- **A run leaves the settings as they are**, whatever comes of it. -/
theorem run_sameSettings (s : Surroundings τ) (e : Evolution σ) (t : τ) :
    e.SameSettings (e.run s t).2.1 := by
  have hstart := (start_standing e).toSameSettings
  unfold run
  split
  · next hfailed =>
    rw [hfailed] at hstart
    exact hstart
  · next first hstarted =>
    rw [hstarted] at hstart
    have hrun := runOn_sameSettings s (remaining { first with phase := .running })
      { first with phase := .running } t
    exact hstart.trans ⟨hrun.others, hrun.sourced, hrun.limits⟩

end Evolution

/-! ## 3. Surroundings that behave the same -/

/-- Surroundings that do as others do, and may keep more in their state. -/
structure Mimics {τ υ : Type} (s' : Surroundings υ) (s : Surroundings τ) (forget : υ → τ) :
    Prop where
  hear : ∀ name event u,
    s.hear name event (forget u) = ((s'.hear name event u).1, forget (s'.hear name event u).2)
  signal : ∀ u, s.signal (forget u) = ((s'.signal u).1, forget (s'.signal u).2)

namespace Evolution

variable {σ τ υ : Type} {s : Surroundings τ} {s' : Surroundings υ} {forget : υ → τ}

theorem tell_mimics (h : Mimics s' s forget) (event : GenerationEvent) (names : List String) :
    ∀ (e : Evolution σ) (u : υ), tell s event names e (forget u) =
      ((tell s' event names e u).1, (tell s' event names e u).2.1,
        forget (tell s' event names e u).2.2) := by
  induction names with
  | nil => exact fun e u => rfl
  | cons name names ih =>
    intro e u
    simp only [tell, h.hear]
    cases e.heed (s'.hear name event u).1 with
    | mk result next =>
      cases result with
      | error failure => rfl
      | ok _ => exact ih next _

theorem ending_mimics (h : Mimics s' s forget) (e : Evolution σ) (u : υ) :
    ending s e (forget u) = ((ending s' e u).1, forget (ending s' e u).2) := by
  unfold ending stopDue
  rw [h.signal]
  cases s'.signal u with
  | mk due u' => cases due <;> split_ifs <;> rfl

variable [RandomSource σ]

theorem step_mimics (h : Mimics s' s forget) (e : Evolution σ) (u : υ) :
    e.step s (forget u) =
      ((e.step s' u).1, (e.step s' u).2.1, forget (e.step s' u).2.2) := by
  unfold step
  split
  · rfl
  · exact tell_mimics h _ _ _ _

theorem runOn_mimics (h : Mimics s' s forget) : ∀ (bound : Nat) (e : Evolution σ) (u : υ),
    e.runOn s bound (forget u) =
      ((e.runOn s' bound u).1, (e.runOn s' bound u).2.1, forget (e.runOn s' bound u).2.2)
  | 0, e, u => by
    simp only [runOn, ending_mimics h]
  | bound + 1, e, u => by
    unfold runOn
    rw [ending_mimics h]
    cases hending : ending s' e u with
    | mk phase? u₁ =>
      cases phase? with
      | some phase => rfl
      | none =>
        simp only [step_mimics h]
        cases hstep : e.step s' u₁ with
        | mk result rest =>
          cases result with
          | error failure => rfl
          | ok _ => exact runOn_mimics h bound rest.1 rest.2

/-- **A run goes the same way in surroundings that behave the same.** -/
theorem run_mimics (h : Mimics s' s forget) (e : Evolution σ) (u : υ) :
    e.run s (forget u) = ((e.run s' u).1, (e.run s' u).2.1, forget (e.run s' u).2.2) := by
  unfold run
  split
  · rfl
  · exact runOn_mimics h _ _ _

end Evolution

end FormulaEvolution
