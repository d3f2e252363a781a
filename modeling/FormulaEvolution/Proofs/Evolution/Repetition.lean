/-
# Runs that repeat

Once its random source has been reset to a seed, a run does not depend on what an evolution has been
through: two evolutions with the same settings come to the same end, whatever populations, best
candidates, generations and phases earlier runs have left in them (`Evolution.run_repeats`).

The argument has three parts.

* **What a run sees.**  A start takes the parts and the limits of an evolution, and all that tells of
  earlier runs is overwritten before it is read (`start_alike`).  So a run goes as it would from
  `Evolution.pristine`, which has no past (`run_pristine`).
* **What listeners do not change.**  Those that only watch may be left out (`run_unheard`); others
  must be the same, and react the same whatever has happened before (`Surroundings.Pure`).
* **What a run leaves.**  Whatever comes of it, it changes no limit and no part but the random source
  (`run_sameSettings`), and if it returns, no wish to stop is left (`run_used_up`).

Hence a run that has returned can be repeated (`run_again`).
-/
import FormulaEvolution.Proofs.Configuration.Runs
import FormulaEvolution.Proofs.Evolution.Stopping

namespace FormulaEvolution

/-! ## 1. Surroundings without a memory -/

namespace Surroundings

variable {τ : Type} {s : Surroundings τ}

/-- How listeners react to an event and whether the signal asks for a stop is the same whatever has
happened before.  A listener may still keep a record of what it is told. -/
structure Pure (s : Surroundings τ) : Prop where
  hear : ∀ name event t t', (s.hear name event t).1 = (s.hear name event t').1
  signal : ∀ t t', (s.signal t).1 = (s.signal t').1

/-- Listeners only watch. -/
def Idle (s : Surroundings τ) : Prop := ∀ name event t, (s.hear name event t).1 = {}

/-- The same surroundings, always in one state. -/
def frozen (s : Surroundings τ) (t : τ) : Surroundings Unit where
  hear name event _ := ((s.hear name event t).1, ())
  signal _ := ((s.signal t).1, ())

theorem Pure.mimics (h : s.Pure) (t : τ) : Mimics s (s.frozen t) fun _ => () where
  hear name event t' := Prod.ext (h.hear name event t t') rfl
  signal t' := Prod.ext (h.signal t t') rfl

theorem Idle.frozen (h : s.Idle) (t : τ) : (s.frozen t).Idle := fun name event _ => h name event t

end Surroundings

namespace Evolution

/-! ## 2. What a run sees -/

section Sight

variable {σ τ : Type}

/-- The same evolution without a past. -/
def pristine (e : Evolution σ) : Evolution σ where
  parts := e.parts
  limits := e.limits
  stopRequested := e.stopRequested
  listeners := e.listeners

/-- Two runs have come to the same in a view of evolutions: both have failed in the same way, or both
have returned and left what looks the same. -/
def SameEnd {α : Type} (view : Evolution σ → α)
    (ran₁ ran₂ : Except Failure Unit × Evolution σ × τ) : Prop :=
  ran₁.1 = ran₂.1 ∧ (ran₁.1 = .ok () → view ran₁.2.1 = view ran₂.2.1)

section SameEnd

variable {α : Type} {view : Evolution σ → α}
variable {ran₁ ran₂ ran₃ : Except Failure Unit × Evolution σ × τ}

theorem SameEnd.symm (h : SameEnd view ran₁ ran₂) : SameEnd view ran₂ ran₁ :=
  ⟨h.1.symm, fun hok => (h.2 (h.1.trans hok)).symm⟩

theorem SameEnd.trans (h : SameEnd view ran₁ ran₂) (h' : SameEnd view ran₂ ran₃) :
    SameEnd view ran₁ ran₃ :=
  ⟨h.1.trans h'.1, fun hok => (h.2 hok).trans (h'.2 (h.1.symm.trans hok))⟩

/-- What is the same looks the same in every view. -/
theorem SameEnd.seen (h : SameEnd id ran₁ ran₂) : SameEnd view ran₁ ran₂ :=
  ⟨h.1, fun hok => congrArg view (h.2 hok)⟩

end SameEnd

variable [RandomSource σ] {s : Surroundings τ} {e₁ e₂ : Evolution σ}

/-- **A run goes the same way without a past.** -/
theorem run_pristine (s : Surroundings τ) (e : Evolution σ) (t : τ) :
    SameEnd id (e.pristine.run s t) (e.run s t) := by
  rcases start_alike e e.pristine rfl rfl with
    ⟨failure, next, next', hstart, hstart'⟩ | ⟨source, p, hstart, hstart'⟩
  · simp only [SameEnd, run, hstart, hstart']
    exact ⟨trivial, fun h => by cases h⟩
  · have hrun : e.pristine.run s t = e.run s t := by
      simp only [run, hstart, hstart']
      rfl
    rw [hrun]
    exact ⟨rfl, fun _ => rfl⟩

/-- Surroundings without a memory may be in any state when a run begins. -/
theorem run_of_pure (hpure : s.Pure) (e : Evolution σ) (t t' : τ) :
    SameEnd id (e.run s t) (e.run s t') := by
  have hsame := run_mimics (hpure.mimics t) e t
  rw [run_mimics (hpure.mimics t) e t'] at hsame
  simp only [Prod.mk.injEq, and_true] at hsame
  exact ⟨hsame.1.symm, fun _ => hsame.2.symm⟩

/-- **Evolutions that are the same without their pasts run alike.** -/
theorem run_of_pristine_eq (hpure : s.Pure) (h : e₁.pristine = e₂.pristine) (t₁ t₂ : τ) :
    SameEnd id (e₁.run s t₁) (e₂.run s t₂) := by
  have hbetween := run_of_pure hpure e₁.pristine t₁ t₂
  rw [h] at hbetween
  have hfirst := run_pristine s e₁ t₁
  rw [h] at hfirst
  exact hfirst.symm.trans (hbetween.trans (run_pristine s e₂ t₂))

end Sight

/-! ## 3. What listeners do not change -/

section Listeners

variable {σ τ : Type}

/-- The same evolution without listeners. -/
def unheard (e : Evolution σ) : Evolution σ := { e with listeners := [] }

/-- Without their pasts evolutions are the same, if they are so but for their listeners and have the
same ones. -/
theorem pristine_of_unheard {e₁ e₂ : Evolution σ} (h : e₁.pristine.unheard = e₂.pristine.unheard)
    (hlisteners : e₁.listeners = e₂.listeners) : e₁.pristine = e₂.pristine := by
  calc e₁.pristine = { e₁.pristine.unheard with listeners := e₁.listeners } := rfl
    _ = { e₂.pristine.unheard with listeners := e₂.listeners } := by rw [h, hlisteners]
    _ = e₂.pristine := rfl

theorem tell_idle {s : Surroundings τ} (hidle : s.Idle) (event : GenerationEvent)
    (e : Evolution σ) (names : List String) : ∀ t : τ,
      (tell s event names e t).1 = .ok () ∧ (tell s event names e t).2.1 = e := by
  have hheed : e.heed {} = (.ok (), e) := by simp [heed, enrol]
  induction names with
  | nil => exact fun t => ⟨rfl, rfl⟩
  | cons name names ih =>
    intro t
    simp only [tell, hidle name event t, hheed]
    exact ih _

variable [RandomSource σ] {s : Surroundings Unit}

/-- If listeners only watch, a step is an advance. -/
theorem step_idle (hidle : s.Idle) (e : Evolution σ) :
    e.step s () = (e.advance.1, e.advance.2, ()) := by
  unfold step
  cases e.advance with
  | mk result next =>
    cases result with
    | error failure => rfl
    | ok _ =>
      obtain ⟨hok, hsame⟩ := tell_idle hidle next.event next next.listeners ()
      exact Prod.ext hok (Prod.ext hsame rfl)

theorem advance_unheard (e : Evolution σ) :
    e.unheard.advance = (e.advance.1, e.advance.2.unheard) := by
  have hcount : e.unheard.offspringCount = e.offspringCount := rfl
  have hbred : e.unheard.offspring e.offspringCount = e.offspring e.offspringCount := rfl
  unfold advance
  rw [hcount, hbred]
  cases e.offspring e.offspringCount with
  | mk bred source => cases bred <;> rfl

theorem runOn_unheard (hidle : s.Idle) : ∀ (bound : Nat) (e : Evolution σ),
    e.unheard.runOn s bound () =
      ((e.runOn s bound ()).1, (e.runOn s bound ()).2.1.unheard, ())
  | 0, e => rfl
  | bound + 1, e => by
    have hending : ending s e.unheard () = ending s e () := rfl
    unfold runOn
    rw [hending]
    cases ending s e () with
    | mk phase? _ =>
      cases phase? with
      | some phase => rfl
      | none =>
        simp only [step_idle hidle, advance_unheard]
        cases e.advance with
        | mk result next =>
          cases result with
          | error failure => rfl
          | ok _ => exact runOn_unheard hidle bound next

theorem run_unheard_frozen (hidle : s.Idle) (e : Evolution σ) :
    SameEnd unheard (e.unheard.run s ()) (e.run s ()) := by
  rcases start_alike e e.unheard rfl rfl with
    ⟨failure, next, next', hstart, hstart'⟩ | ⟨source, p, hstart, hstart'⟩
  · simp only [SameEnd, run, hstart, hstart']
    exact ⟨trivial, fun h => by cases h⟩
  · have hrun := runOn_unheard hidle (remaining (e.founded source p))
      { e.founded source p with phase := .running }
    have hresult := congrArg Prod.fst hrun
    have hend := congrArg (·.2.1.unheard) hrun
    simp only [SameEnd, run, hstart, hstart']
    exact ⟨hresult, fun _ => hend⟩

/-- **If listeners only watch, a run goes the same way without them.** -/
theorem run_unheard {τ : Type} {s : Surroundings τ} (hpure : s.Pure) (hidle : s.Idle)
    (e : Evolution σ) (t : τ) : SameEnd unheard (e.unheard.run s t) (e.run s t) := by
  have hfrozen := run_unheard_frozen (hidle.frozen t) e
  rw [run_mimics (hpure.mimics t) e t, run_mimics (hpure.mimics t) e.unheard t] at hfrozen
  exact hfrozen

/-- **Evolutions that are the same but for their pasts and their listeners run alike**, if the
listeners are the same or only watch. -/
theorem run_alike {τ : Type} {s : Surroundings τ} {e₁ e₂ : Evolution σ} (hpure : s.Pure)
    (hlisteners : e₁.listeners = e₂.listeners ∨ s.Idle)
    (h : e₁.pristine.unheard = e₂.pristine.unheard) (t₁ t₂ : τ) :
    SameEnd unheard (e₁.run s t₁) (e₂.run s t₂) := by
  rcases hlisteners with hlisteners | hidle
  · exact (run_of_pristine_eq hpure (pristine_of_unheard h hlisteners) t₁ t₂).seen
  · have h' : e₁.unheard.pristine = e₂.unheard.pristine := h
    have hbetween : SameEnd unheard (e₁.unheard.run s t₁) (e₂.unheard.run s t₂) :=
      (run_of_pristine_eq hpure h' t₁ t₂).seen
    exact (run_unheard hpure hidle e₁ t₁).symm.trans
      (hbetween.trans (run_unheard hpure hidle e₂ t₂))

end Listeners

/-! ## 4. Starting again from a seed -/

/-- Start the sequence of the random source again from a seed. -/
def reseed (seed : Int) (e : Evolution Twister) : Evolution Twister :=
  e.withSource (e.parts.source.map (·.reset (some seed)))

variable {τ : Type} {s : Surroundings τ} {e₁ e₂ e e' : Evolution Twister}

/-- Of a source that is reset, it only counts that there is one. -/
theorem reset_of_sourced {source₁ source₂ : Option Twister} (h : source₁.isSome = source₂.isSome)
    (seed : Int) : source₁.map (·.reset (some seed)) = source₂.map (·.reset (some seed)) := by
  cases source₁ with
  | none =>
    cases source₂ with
    | none => rfl
    | some t₂ => cases h
  | some t₁ =>
    cases source₂ with
    | none => cases h
    | some t₂ => rfl

/-- Reset to one seed, evolutions with the same settings differ in their pasts and their listeners at
most. -/
theorem pristine_reseed (h : e₁.SameSettings e₂) (hstop : e₁.stopRequested = e₂.stopRequested)
    (seed : Int) : (e₁.reseed seed).pristine.unheard = (e₂.reseed seed).pristine.unheard := by
  have hsource := reset_of_sourced h.sourced seed
  simp only [unheard, pristine, reseed, hsource, h.others]
  simp only [withSource, h.limits, hstop]

/-- An evolution that has equipment has it from any seed. -/
theorem Has.reseed {q : Equipment} {l : Limits} (h : e.Has q l) (seed : Int) :
    (e.reseed seed).Has q l := by
  obtain ⟨source, hparts⟩ := h.parts
  have hsource : e.reseed seed = e.withSource (some (source.reset (some seed))) := by
    simp only [Evolution.reseed, hparts, Equipment.parts, Option.map_some]
  rw [hsource]
  exact h.withSource _

/-- **A run that has returned can be repeated**, if it has left the listeners as they were: from a
seed the evolution comes to the same with the run behind it and without it. -/
theorem run_again (hpure : s.Pure) {t t' : τ} (hran : e.run s t = (.ok (), e', t'))
    (hlisteners : e.listeners = e'.listeners) (hnone : e.stopRequested = false) (seed : Int) :
    SameEnd id ((e.reseed seed).run s t) ((e'.reseed seed).run s t') := by
  have hsettings := run_sameSettings s e t
  rw [hran] at hsettings
  have hsame := pristine_reseed hsettings (hnone.trans (run_used_up hran).symm) seed
  exact run_of_pristine_eq hpure (pristine_of_unheard hsame hlisteners) t t'

/-- **Runs repeat.**  Two evolutions with the same settings and without a request to stop, whatever
has become of them otherwise, come to the same once their sources are reset to one seed, if the
listeners are the same or only watch: both runs return or both fail with the same failure, and if
they return, the evolutions are the same but for who listens, with their phase, generation, history,
best candidate and population. -/
theorem run_repeats (hpure : s.Pure) (hlisteners : e₁.listeners = e₂.listeners ∨ s.Idle)
    (hsettings : e₁.SameSettings e₂) (hnone₁ : e₁.stopRequested = false)
    (hnone₂ : e₂.stopRequested = false) (seed : Int) (t₁ t₂ : τ) :
    ((e₁.reseed seed).run s t₁).1 = ((e₂.reseed seed).run s t₂).1 ∧
    (((e₁.reseed seed).run s t₁).1 = .ok () →
      ((e₁.reseed seed).run s t₁).2.1.unheard = ((e₂.reseed seed).run s t₂).2.1.unheard) := by
  have hsame := pristine_reseed hsettings (hnone₁.trans hnone₂.symm) seed
  have hlisteners' : (e₁.reseed seed).listeners = (e₂.reseed seed).listeners ∨ s.Idle := hlisteners
  exact run_alike hpure hlisteners' hsame t₁ t₂

end Evolution

/-- An evolution that has just been described has no past. -/
theorem Configuration.evolution_eq {c : Configuration} {d : Dataset} {e : Evolution Twister}
    (h : c.evolution d = .ok e) : ∃ parts limits, e = { parts, limits } := by
  unfold evolution evolutionWith at h
  obtain ⟨-, -, h⟩ := Except.bind_ok h
  obtain ⟨parts, -, h⟩ := Except.bind_ok h
  obtain ⟨limits, -, h⟩ := Except.bind_ok h
  cases h
  exact ⟨parts, limits, rfl⟩

/-- With a run behind it and a listener that only watches, the small evolution comes to the same from
a seed as without. -/
theorem Evolution.run_repeats_small : ∃ e e' : Evolution Twister,
    Configuration.small.evolution .small = .ok e ∧ e.best = none ∧
    e.run .silent () = (.ok (), e', ()) ∧ e'.best ≠ none ∧
    ((e.reseed 7).run .silent ()).1 = .ok () ∧
    ((e.reseed 7).run .silent ()).2.1.unheard =
      (((e'.listen "watch").reseed 7).run .silent ()).2.1.unheard := by
  have hsuits := Configuration.suits_small
  obtain ⟨source, hsource⟩ := Configuration.source_of_typed hsuits.typed
  obtain ⟨e, q, l, b, g, hmade, hhas, hserves⟩ :=
    hsuits.evolutionWith (List.cons_ne_nil _ _) source
  have hdescribed : Configuration.small.evolution .small = .ok e := by
    rw [Configuration.evolution, hsource, hmade]
  obtain ⟨parts, limits, hnew⟩ := Configuration.evolution_eq hdescribed
  have hnone : e.stopRequested = false := by rw [hnew]
  obtain ⟨e', t', hrun, hlive⟩ := Evolution.run_of_serves hhas hserves Surroundings.silent ()
  obtain ⟨x, hbest, -⟩ := hlive.keeps.best
  have hbest' : e'.best ≠ none := by
    rw [hbest]
    exact Option.some_ne_none x
  have hran := Evolution.run_sameSettings Surroundings.silent e ()
  rw [hrun] at hran
  have hsettings : e.SameSettings (e'.listen "watch") := ⟨hran.others, hran.sourced, hran.limits⟩
  have hpure : Surroundings.silent.Pure := ⟨fun _ _ _ _ => rfl, fun _ _ => rfl⟩
  have hidle : Surroundings.silent.Idle := fun _ _ _ => rfl
  have hused := Evolution.run_used_up hrun
  have hnone' : (e'.listen "watch").stopRequested = false := hused
  obtain ⟨-, hsame⟩ := Evolution.run_repeats hpure (.inr hidle) hsettings hnone hnone' 7 () ()
  obtain ⟨e'', t'', hrun', -⟩ := Evolution.run_of_serves (hhas.reseed 7) hserves
    Surroundings.silent ()
  have hok : ((e.reseed 7).run .silent ()).1 = .ok () := by rw [hrun']
  exact ⟨e, e', hdescribed, by rw [hnew], hrun, hbest', hok, hsame hok⟩

end FormulaEvolution
