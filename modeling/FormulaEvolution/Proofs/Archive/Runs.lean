/-
# Archives of runs

What the archive of an evolving command is told of is what a run goes through: each of its generations once,
in their order, with a best tree and with its population (`Evolve.told_of_run`).  A run that returns has had
all of them recorded, since a listener that fails ends it.
-/
import FormulaEvolution.Command.Evolve
import FormulaEvolution.Proofs.Archive.Names
import FormulaEvolution.Proofs.Evolution.Best
import FormulaEvolution.Proofs.Evolution.Completion
import FormulaEvolution.Proofs.Evolution.Frame

namespace FormulaEvolution

/-- Telling listeners succeeds if the first one is heeded and telling the others succeeds. -/
theorem Evolution.tell_cons_ok {σ τ : Type} {s : Surroundings τ} {event : GenerationEvent} {name : String}
    {names : List String} {e e' : Evolution σ} {t t' : τ}
    (h : tell s event (name :: names) e t = (.ok (), e', t')) :
    ∃ e₁, e.heed (s.hear name event t).1 = (.ok (), e₁) ∧
      tell s event names e₁ (s.hear name event t).2 = (.ok (), e', t') := by
  simp only [tell] at h
  split at h
  · cases h
  · next e₁ hheeded => exact ⟨e₁, hheeded, h⟩

namespace Evolve

open Archive Evolution

variable {σ : Type} {verbose : Bool} {maxGenerations : Int} {e e' : Evolution σ} {t t' : Audience}
  {event : GenerationEvent} {events : List GenerationEvent}

/-! ## 1. One generation -/

/-- The archive records what it is told of, and fails if that fails. -/
theorem hear_archiver (event : GenerationEvent) (t : Audience) :
    (surroundings verbose maxGenerations).hear archiver event t =
      ({ failure := match (t.archive.record event t.desk.workspace).1 with
          | .ok _ => none
          | .error failure => some failure },
        { archive := (t.archive.record event t.desk.workspace).2.1,
          desk := { t.desk with workspace := (t.archive.record event t.desk.workspace).2.2 } }) := by
  simp only [surroundings, if_true]
  rcases t.archive.record event t.desk.workspace with ⟨failure | entry, archive, workspace⟩ <;> rfl

/-- The lines that are printed touch neither the archive nor the workspace, and nothing is asked for. -/
theorem hear_narrator (verbose : Bool) (maxGenerations : Int) (event : GenerationEvent) (t : Audience) :
    ((surroundings verbose maxGenerations).hear narrator event t).1 = {} ∧
      ((surroundings verbose maxGenerations).hear narrator event t).2.archive = t.archive ∧
      ((surroundings verbose maxGenerations).hear narrator event t).2.desk.workspace =
        t.desk.workspace := by
  have hother : ¬narrator = archiver := by decide
  simp only [surroundings, if_neg hother]
  split <;> exact ⟨rfl, rfl, rfl⟩

/-- A listener that is heeded has not failed, and if it asks for no change the same ones listen. -/
theorem heed_ok {reaction : Reaction} (hsame : reaction.enrolments = [])
    (h : e.heed reaction = (.ok (), e')) : reaction.failure = none ∧ e'.listeners = e.listeners := by
  rw [heed, hsame, enrol] at h
  simp only at h
  cases hfailure : reaction.failure with
  | some failure =>
    rw [hfailure] at h
    cases h
  | none =>
    rw [hfailure] at h
    cases h
    exact ⟨rfl, rfl⟩

/-- **A generation that all listeners have been told of has been recorded**, and nothing else has happened to
the archive and its workspace; the same ones listen. -/
theorem recorded_of_tell
    (h : tell (surroundings verbose maxGenerations) event [archiver, narrator] e t = (.ok (), e', t')) :
    e'.listeners = e.listeners ∧ (∃ entry, (t.archive.record event t.desk.workspace).1 = .ok entry) ∧
      t.archive.after t.desk.workspace [event] = (t'.archive, t'.desk.workspace) := by
  obtain ⟨e₁, hfirst, h⟩ := tell_cons_ok h
  obtain ⟨e₂, hsecond, h⟩ := tell_cons_ok h
  obtain ⟨hreaction, harchive, hworkspace⟩ := hear_narrator verbose maxGenerations event
    ((surroundings verbose maxGenerations).hear archiver event t).2
  rw [Evolution.tell, Prod.mk.injEq, Prod.mk.injEq] at h
  obtain ⟨-, rfl, rfl⟩ := h
  rw [hear_archiver] at hfirst
  rw [hreaction] at hsecond
  obtain ⟨hfailure, hlisteners⟩ := heed_ok rfl hfirst
  obtain ⟨-, hlisteners'⟩ := heed_ok rfl hsecond
  refine ⟨hlisteners'.trans hlisteners, ?_, ?_⟩
  · cases hrecord : (t.archive.record event t.desk.workspace).1 with
    | ok entry => exact ⟨entry, rfl⟩
    | error failure =>
      simp only [hrecord] at hfailure
      cases hfailure
  · rw [after, after, harchive, hworkspace, hear_archiver]

/-! ## 2. Runs -/

/-- What an audience has been told of between two moments: generations as a run goes through them, each with
its population, and the archive has recorded them all. -/
structure Recorded (t t' : Audience) (start : Nat) (events : List GenerationEvent) : Prop where
  succession : Succession start events
  peopled : ∀ event ∈ events, event.population.isSome
  accepted : t.archive.Accepts t.desk.workspace events
  reached : t.archive.after t.desk.workspace events = (t'.archive, t'.desk.workspace)

variable [RandomSource σ] {e₀ : Evolution σ} {ps : List Population}

/-- **A step that succeeds has its generation recorded.** -/
theorem recorded_of_step (hlisteners : e.listeners = [archiver, narrator]) (hlineage : Lineage e₀ ps e)
    (h : e.step (surroundings verbose maxGenerations) t = (.ok (), e', t')) :
    e'.listeners = [archiver, narrator] ∧ e'.generation = e.generation + 1 ∧
      ∃ event, Recorded t t' e.generation [event] := by
  obtain ⟨x, hbest, -⟩ := (best_of_lineage (hlineage.step h)).best
  have hstanding := e.advance_standing
  unfold step at h
  split at h
  · cases h
  · next next hadvance =>
    rw [hadvance] at hstanding
    have hheard : next.listeners = [archiver, narrator] := hstanding.listeners.symm.trans hlisteners
    have hgeneration : next.generation = e.generation + 1 := by
      obtain ⟨bred, source, -, rfl⟩ := advance_ok hadvance
      rfl
    obtain ⟨stop, listeners, htold⟩ := announce_eq (surroundings verbose maxGenerations) next t
    rw [h] at htold
    rw [announce, hheard] at h
    obtain ⟨hsame, haccepted, hreached⟩ := recorded_of_tell h
    obtain rfl : e' = _ := htold
    refine ⟨hsame.trans hheard, hgeneration, next.event, ?_, ?_, ⟨haccepted, trivial⟩, hreached⟩
    · refine ⟨congrArg Int.ofNat hgeneration, ?_, trivial⟩
      have hnext : next.best = some x := hbest
      rw [event, hnext]
      rfl
    · exact List.forall_mem_singleton.mpr rfl

theorem Recorded.cons {t'' : Audience} {start : Nat} (h : Recorded t t' start [event])
    (hrest : Recorded t' t'' (start + 1) events) : Recorded t t'' start (event :: events) := by
  have hreached := h.reached
  simp only [after, Prod.mk.injEq] at hreached
  obtain ⟨harchive, hworkspace⟩ := hreached
  have hlater := hrest.succession
  obtain ⟨hnumber, htree, -⟩ := h.succession
  refine ⟨⟨hnumber, htree, hlater⟩, ?_, ⟨h.accepted.1, ?_⟩, ?_⟩
  · exact List.forall_mem_cons.mpr ⟨h.peopled event List.mem_cons_self, hrest.peopled⟩
  · rw [harchive, hworkspace]
    exact hrest.accepted
  · rw [after, harchive, hworkspace]
    exact hrest.reached

/-- **From boundary to boundary, each generation is recorded.** -/
theorem recorded_of_runOn : ∀ {bound : Nat} {e : Evolution σ} {ps : List Population} {t : Audience},
    e.listeners = [archiver, narrator] → Lineage e₀ ps e →
      e.runOn (surroundings verbose maxGenerations) bound t = (.ok (), e', t') →
        ∃ events, Recorded t t' e.generation events ∧ e'.generation = e.generation + events.length
  | 0, e, _, t, _, _, h => by
    have hstill : (ending (surroundings verbose maxGenerations) e t).2 = t :=
      ending_of_signal (fun _ => rfl) e t
    simp only [runOn, Prod.mk.injEq, true_and, hstill] at h
    obtain ⟨rfl, rfl⟩ := h
    exact ⟨[], ⟨trivial, fun _ h => absurd h List.not_mem_nil, trivial, rfl⟩, rfl⟩
  | bound + 1, e, _, t, hlisteners, hlineage, h => by
    have hstill : (ending (surroundings verbose maxGenerations) e t).2 = t :=
      ending_of_signal (fun _ => rfl) e t
    unfold runOn at h
    split at h
    · next phase t₁ hending =>
      rw [hending] at hstill
      obtain rfl : t₁ = t := hstill
      cases h
      exact ⟨[], ⟨trivial, fun _ h => absurd h List.not_mem_nil, trivial, rfl⟩, rfl⟩
    · next t₁ hending =>
      rw [hending] at hstill
      obtain rfl : t₁ = t := hstill
      split at h
      · cases h
      · next e₁ t₂ hstep =>
        obtain ⟨hsame, hgeneration, event, hevent⟩ := recorded_of_step hlisteners hlineage hstep
        obtain ⟨events, hevents, hcount⟩ := recorded_of_runOn hsame (hlineage.step hstep) h
        rw [hgeneration] at hevents hcount
        exact ⟨event :: events, hevent.cons hevents, by rw [hcount, List.length_cons]; omega⟩

/-- **What the archive of a run is told of**: the generations from the first one to the last one, each with a
best tree and with its population; all of them are recorded if the run returns. -/
theorem told_of_run (hlisteners : e.listeners = [archiver, narrator])
    (h : e.run (surroundings verbose maxGenerations) t = (.ok (), e', t')) :
    ∃ events, Recorded t t' 0 events ∧ e'.generation = events.length := by
  have hstanding := e.start_standing
  unfold run at h
  split at h
  · cases h
  · next first hstart =>
    rw [hstart] at hstanding
    have hfirst : first.generation = 0 := by
      obtain ⟨source, p, -, rfl⟩ := start_population_ne_nil hstart
      rfl
    have hheard : first.listeners = [archiver, narrator] := hstanding.listeners.symm.trans hlisteners
    have hlineage := (Lineage.start hstart).aside (Aside.phase first .running first.stopRequested)
    obtain ⟨events, hevents, hcount⟩ :=
      recorded_of_runOn (e := { first with phase := .running }) hheard hlineage h
    simp only [hfirst, Nat.zero_add] at hevents hcount
    exact ⟨events, hevents, hcount⟩

end Evolve
end FormulaEvolution
