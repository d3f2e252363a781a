/-
# Requests to stop

What becomes of requests to stop over a sequence of runs, of which some may fail, where nothing asks
for a stop from outside (`Evolution.stopped_iff_outstanding`).

A `Chronicle` notes what happens to an evolution while orders are carried out on it: a request, by an
order or by a listener, a run that has returned, a run that has failed.  A request is outstanding from
when it is made until a run returns.  A run that returns has ended stopped exactly if a request was
outstanding and the target was not reached, and the evolution remembers exactly whether one is
outstanding.

Only a run that returns uses requests up.  A run that fails leaves them, whether its first generation
could not be made, a later one, or a listener failed; the next run then ends stopped though nobody has
asked for that since (`Evolution.stopped_after_failure`).

Requests by listeners are told by surroundings that remember whether there was one
(`Surroundings.minding`).  They behave the same otherwise (`run_mimics`), and along a run in them the
wish to stop is what it was before or what is remembered (`Minded`).
-/
import FormulaEvolution.Proofs.Evolution.Boundaries
import FormulaEvolution.Proofs.Evolution.Frame

namespace FormulaEvolution

/-! ## 1. Requests along a run -/

/-- The same surroundings, which remember whether a listener has asked for a stop. -/
def Surroundings.minding {τ : Type} (s : Surroundings τ) : Surroundings (τ × Bool) where
  hear name event t :=
    ((s.hear name event t.1).1, (s.hear name event t.1).2, t.2 || (s.hear name event t.1).1.stop)
  signal t := ((s.signal t.1).1, (s.signal t.1).2, t.2)

theorem Surroundings.minding_mimics {τ : Type} (s : Surroundings τ) :
    Mimics s.minding s Prod.fst where
  hear _ _ _ := rfl
  signal _ := rfl

namespace Evolution

variable {σ τ : Type}

/-- The evolution wishes to stop exactly if it did before or a request is remembered. -/
def Minded (before : Bool) (e : Evolution σ) (u : τ × Bool) : Prop :=
  e.stopRequested = (before || u.2)

/-- What a run has made of a request that was pending at its end. -/
structure Concluded (pending : Bool) (result : Except Failure Unit) (e : Evolution σ) : Prop where
  failed : ∀ failure, result = .error failure → e.stopRequested = pending
  stopped : result = .ok () → (e.phase = .stopped ↔ e.phase ≠ .converged ∧ pending = true)

theorem concluded_of_failure {pending : Bool} {failure : Failure} {e : Evolution σ}
    (h : e.stopRequested = pending) : Concluded pending (.error failure) e where
  failed _ _ := h
  stopped hok := by cases hok

variable {s : Surroundings τ} {before : Bool}

theorem tell_minded (event : GenerationEvent) (names : List String) :
    ∀ {e : Evolution σ} {u : τ × Bool}, Minded before e u →
      Minded before (tell s.minding event names e u).2.1 (tell s.minding event names e u).2.2 := by
  induction names with
  | nil => exact fun h => h
  | cons name names ih =>
    intro e u h
    have hheard : Minded before (e.heed (s.minding.hear name event u).1).2
        (s.minding.hear name event u).2 := by
      obtain ⟨listeners, hheeded⟩ := heed_eq e (s.minding.hear name event u).1
      rw [hheeded]
      unfold Minded at h ⊢
      simp only [Surroundings.minding, h, Bool.or_assoc]
    simp only [tell]
    split
    · next hfailed =>
      rw [hfailed] at hheard
      exact hheard
    · next hdone =>
      rw [hdone] at hheard
      exact ih hheard

/-- A signal is no request by a listener. -/
theorem ending_minding (e : Evolution σ) (u : τ × Bool) : (ending s.minding e u).2.2 = u.2 :=
  ending_keeps (P := fun v : τ × Bool => v.2 = u.2) (fun _ h => h) e rfl

open Classical in
/-- Without a signal a run that ends is stopped by requests alone. -/
theorem ending_without_signal (hsignal : ∀ t, (s.signal t).1 = false) (e : Evolution σ) (t : τ) :
    (ending s e t).1.getD .exhausted = if e.Reaches then .converged
      else if e.stopRequested = true then .stopped
      else .exhausted := by
  have hpending : Pending s e t ↔ e.stopRequested = true := by
    simp [Pending, hsignal]
  rw [ending_eq]
  simp only [hpending]
  split_ifs <;> rfl

/-- A run that ends has ended by the request that was pending. -/
theorem finish_concluded (hsignal : ∀ t, (s.signal t).1 = false) {e : Evolution σ} {u : τ × Bool}
    (h : Minded before e u) :
    Concluded (before || (ending s.minding e u).2.2) (.ok ())
      (e.finish ((ending s.minding e u).1.getD .exhausted)) where
  failed _ hfailed := by cases hfailed
  stopped _ := by
    have hminding : ∀ u, (s.minding.signal u).1 = false := fun u => hsignal u.1
    unfold Minded at h
    rw [ending_minding, ← h]
    simp only [finish, ending_without_signal hminding]
    split_ifs with hreaches hrequested
    · simp
    · simp [hrequested]
    · simp [hrequested]

variable [RandomSource σ]

theorem step_minded {e : Evolution σ} {u : τ × Bool} (h : Minded before e u) :
    Minded before (e.step s.minding u).2.1 (e.step s.minding u).2.2 := by
  have hadvance := (advance_standing e).stopRequested.symm
  unfold step
  split
  · next hfailed =>
    rw [hfailed] at hadvance
    exact hadvance.trans h
  · next next hdone =>
    rw [hdone] at hadvance
    exact tell_minded next.event next.listeners (hadvance.trans h)

/-- **A run that fails leaves the pending request, and one that returns has ended by it.**  The
induction is over the boundaries. -/
theorem runOn_concluded (hsignal : ∀ t, (s.signal t).1 = false) :
    ∀ (bound : Nat) {e : Evolution σ} {u : τ × Bool}, Minded before e u →
      Concluded (before || (e.runOn s.minding bound u).2.2.2) (e.runOn s.minding bound u).1
        (e.runOn s.minding bound u).2.1
  | 0, e, u, h => finish_concluded hsignal h
  | bound + 1, e, u, h => by
    have hfinish := finish_concluded hsignal h
    have hflag := ending_minding (s := s) e u
    unfold runOn
    split
    · next phase u₁ hending =>
      rw [hending] at hfinish
      exact hfinish
    · next u₁ hending =>
      rw [hending] at hflag
      have hstep := step_minded (s := s) (u := u₁) (h.trans (congrArg (before || ·) hflag.symm))
      split
      · next failure e₁ u₂ hfailed =>
        rw [hfailed] at hstep
        exact concluded_of_failure hstep
      · next e₁ u₂ hdone =>
        rw [hdone] at hstep
        exact runOn_concluded hsignal bound hstep

theorem runOn_used_up : ∀ (bound : Nat) {e e' : Evolution σ} {t t' : τ},
    e.runOn s bound t = (.ok (), e', t') → e'.stopRequested = false
  | 0, e, e', t, t', h => by
    simp only [runOn, Prod.mk.injEq, true_and] at h
    exact h.1 ▸ rfl
  | bound + 1, e, e', t, t', h => by
    unfold runOn at h
    split at h
    · simp only [Prod.mk.injEq, true_and] at h
      exact h.1 ▸ rfl
    · split at h
      · simp at h
      · exact runOn_used_up bound h

/-- Whether a listener asks for a stop during a run. -/
def asks (s : Surroundings τ) (e : Evolution σ) (t : τ) : Bool :=
  (e.run s.minding (t, false)).2.2.2

/-- **What a run makes of requests**: those from before it and those that listeners make on the
way. -/
theorem run_concluded (hsignal : ∀ t, (s.signal t).1 = false) (e : Evolution σ) (t : τ) :
    Concluded (e.stopRequested || e.asks s t) (e.run s t).1 (e.run s t).2.1 := by
  have hminded : Minded e.stopRequested e.start.2 (t, false) := by
    rw [Minded, Bool.or_false]
    exact (start_standing e).stopRequested.symm
  have hsame := run_mimics s.minding_mimics e (t, false)
  simp only at hsame
  rw [hsame]
  unfold asks run
  split
  · next hfailed =>
    rw [hfailed] at hminded
    exact concluded_of_failure hminded
  · next first hstarted =>
    rw [hstarted] at hminded
    exact runOn_concluded hsignal _ hminded

/-- **A run that returns uses all requests up**, whatever has asked for them. -/
theorem run_used_up {e e' : Evolution σ} {t t' : τ} (h : e.run s t = (.ok (), e', t')) :
    e'.stopRequested = false := by
  unfold run at h
  split at h
  · simp at h
  · exact runOn_used_up _ h

end Evolution

/-! ## 2. Chronicles -/

/-- What is asked of an evolution from outside. -/
inductive Order where
  | stop
  | run
  deriving DecidableEq, Repr

/-- What happens to an evolution. -/
inductive Incident where
  | asked
  | returned (phase : Phase)
  | failed (failure : Failure)
  deriving DecidableEq, Repr

/-- What has come of a run. -/
def Incident.ofRun (result : Except Failure Unit) (phase : Phase) : Incident :=
  match result with
  | .ok () => .returned phase
  | .error failure => .failed failure

/-- Whether a request is outstanding after these incidents, the latest of which is first. -/
def outstanding : List Incident → Bool
  | [] => false
  | .asked :: _ => true
  | .returned _ :: _ => false
  | .failed _ :: incidents => outstanding incidents

/-- An evolution in its surroundings, and what has happened to it so far, the latest first. -/
structure Chronicle (σ τ : Type) where
  evolution : Evolution σ
  around : τ
  incidents : List Incident := []

/-- The incident of a request, if there was one. -/
def request (asked : Bool) : List Incident := if asked then [.asked] else []

section Chronicle

variable {σ τ : Type} [RandomSource σ]

/-- Carry out an order.  A listener asks before the run is over. -/
def Chronicle.obey (s : Surroundings τ) (c : Chronicle σ τ) : Order → Chronicle σ τ
  | .stop => { c with evolution := c.evolution.requestStop, incidents := .asked :: c.incidents }
  | .run =>
    let (result, e, t) := c.evolution.run s c.around
    { evolution := e
      around := t
      incidents := .ofRun result e.phase :: (request (c.evolution.asks s c.around) ++ c.incidents) }

/-- Carry out orders, one after the other. -/
def Chronicle.obeyAll (s : Surroundings τ) (c : Chronicle σ τ) (orders : List Order) :
    Chronicle σ τ :=
  orders.foldl (obey s) c

theorem outstanding_request (asked : Bool) (incidents : List Incident) :
    outstanding (request asked ++ incidents) = (outstanding incidents || asked) := by
  cases asked with
  | true => simp [request, outstanding]
  | false => simp [request]

/-- If nothing was outstanding after a run, and something is later on, there was a request in
between. -/
theorem asked_of_outstanding {phase : Phase} {earlier : List Incident} :
    ∀ {between : List Incident}, outstanding (between ++ .returned phase :: earlier) = true →
      .asked ∈ between
  | [], h => by simp [outstanding] at h
  | .asked :: between, _ => List.mem_cons_self
  | .returned _ :: between, h => by simp [outstanding] at h
  | .failed _ :: between, h => List.mem_cons_of_mem _ (asked_of_outstanding h)

/-- A run that has returned ended stopped exactly if it had not converged and a request was
outstanding. -/
def Accounted (incidents : List Incident) : Prop :=
  ∀ later phase earlier, incidents = later ++ .returned phase :: earlier →
    (phase = .stopped ↔ phase ≠ .converged ∧ outstanding earlier = true)

theorem accounted_cons {i : Incident} {incidents : List Incident} (h : Accounted incidents)
    (hi : ∀ phase, i = .returned phase →
      (phase = .stopped ↔ phase ≠ .converged ∧ outstanding incidents = true)) :
    Accounted (i :: incidents) := by
  intro later phase earlier heq
  cases later with
  | nil =>
    obtain ⟨hfirst, hrest⟩ := List.cons.inj heq
    exact hrest ▸ hi phase hfirst
  | cons j later => exact h later phase earlier (List.cons.inj heq).2

theorem accounted_request {asked : Bool} {incidents : List Incident} (h : Accounted incidents) :
    Accounted (request asked ++ incidents) := by
  cases asked with
  | true => exact accounted_cons h fun _ hasked => by cases hasked
  | false => exact h

/-- The evolution remembers what is outstanding, and all runs that have returned ended by it. -/
structure Chronicle.Faithful (c : Chronicle σ τ) : Prop where
  remembered : c.evolution.stopRequested = outstanding c.incidents
  accounted : Accounted c.incidents

variable {s : Surroundings τ}

/-- **Carrying out an order keeps a chronicle faithful**, whatever comes of it. -/
theorem Chronicle.faithful_obey (hsignal : ∀ t, (s.signal t).1 = false) {c : Chronicle σ τ}
    (h : c.Faithful) (order : Order) : (c.obey s order).Faithful := by
  cases order with
  | stop =>
    refine ⟨rfl, accounted_cons h.accounted ?_⟩
    rintro phase ⟨⟩
  | run =>
    have hrun := Evolution.run_concluded hsignal c.evolution c.around
    have hpending : (c.evolution.stopRequested || c.evolution.asks s c.around) =
        outstanding (request (c.evolution.asks s c.around) ++ c.incidents) := by
      rw [outstanding_request, h.remembered]
    rw [hpending] at hrun
    have hbefore : Accounted (request (c.evolution.asks s c.around) ++ c.incidents) :=
      accounted_request h.accounted
    cases hresult : c.evolution.run s c.around with
    | mk result rest =>
      rw [hresult] at hrun
      cases result with
      | error failure =>
        simp only [obey, hresult, Incident.ofRun]
        refine ⟨hrun.failed failure rfl, accounted_cons hbefore ?_⟩
        rintro phase ⟨⟩
      | ok _ =>
        simp only [obey, hresult, Incident.ofRun]
        refine ⟨Evolution.run_used_up hresult, accounted_cons hbefore ?_⟩
        rintro phase ⟨⟩
        exact hrun.stopped rfl

theorem Chronicle.faithful_obeyAll (hsignal : ∀ t, (s.signal t).1 = false) :
    ∀ (orders : List Order) {c : Chronicle σ τ}, c.Faithful → (c.obeyAll s orders).Faithful
  | [], _, h => h
  | order :: orders, _, h => faithful_obeyAll hsignal orders (faithful_obey hsignal h order)

/-- **Runs are stopped by outstanding requests, and only those that return use them up.**  Over any
orders, where nothing asks from outside and no request is pending at first: the evolution remembers
exactly whether a request is outstanding; a run that has returned ended stopped exactly if it had not
converged and a request was outstanding, from before it or by a listener on the way; and if a run has
returned, a later one ends stopped only if there was a request in between. -/
theorem Evolution.stopped_iff_outstanding (hsignal : ∀ t, (s.signal t).1 = false) {e : Evolution σ}
    (hnone : e.stopRequested = false) (t : τ) (orders : List Order) :
    let c := (Chronicle.mk e t []).obeyAll s orders
    c.evolution.stopRequested = outstanding c.incidents ∧
    (∀ later phase earlier, c.incidents = later ++ .returned phase :: earlier →
      (phase = .stopped ↔ phase ≠ .converged ∧ outstanding earlier = true)) ∧
    ∀ later between phase earlier,
      c.incidents = later ++ .returned .stopped :: (between ++ .returned phase :: earlier) →
        .asked ∈ between := by
  have hfirst : (Chronicle.mk e t []).Faithful := ⟨hnone, fun later phase earlier h => by simp at h⟩
  have hfaithful := Chronicle.faithful_obeyAll hsignal orders hfirst
  refine ⟨hfaithful.remembered, hfaithful.accounted, ?_⟩
  intro later between phase earlier hincidents
  have hstopped := (hfaithful.accounted later .stopped _ hincidents).mp rfl
  exact asked_of_outstanding hstopped.2

end Chronicle

/-- Surroundings in which the first listener to be told asks for a stop and fails. -/
def Surroundings.failingOnce : Surroundings Bool where
  hear _ _ first := ({ stop := first, failure := if first then some .unimplemented else none }, false)
  signal first := (false, first)

/-- The small evolution, for one generation. -/
def Evolution.brief : Except Failure (Evolution Steady) :=
  (Configuration.small.set .maxGenerations (.int 1)).evolutionWith .small none (.ok ⟨⟩)

/-- In a run of the brief evolution a listener asks for a stop and fails.  The next run is stopped by
that request, and only the one after it goes the distance. -/
theorem Evolution.stopped_by_listener : ∃ e₀ : Evolution Steady, Evolution.brief = .ok e₀ ∧
    let c := (Chronicle.mk (e₀.listen "watch") true []).obeyAll .failingOnce [.run, .run, .run]
    c.incidents = [.returned .exhausted, .returned .stopped, .failed .unimplemented, .asked] ∧
    c.evolution.stopRequested = false ∧ outstanding [.failed .unimplemented, .asked] = true := by
  have hruns : (Evolution.brief.toOption.any fun e₀ => !e₀.stopRequested &&
      ((Chronicle.mk (e₀.listen "watch") true []).obeyAll .failingOnce
        [.run, .run, .run]).incidents = [.returned .exhausted, .returned .stopped,
          .failed .unimplemented, .asked]) = true := by
    decide +kernel
  cases hbrief : Evolution.brief with
  | error failure => simp [hbrief, Except.toOption] at hruns
  | ok e₀ =>
    simp only [hbrief, Except.toOption, Option.any_some, Bool.and_eq_true, Bool.not_eq_true',
      decide_eq_true_eq] at hruns
    obtain ⟨hnone, hincidents⟩ := hruns
    have hsignal : ∀ first, (Surroundings.failingOnce.signal first).1 = false := fun _ => rfl
    obtain ⟨hremembered, hstopped, -⟩ := Evolution.stopped_iff_outstanding hsignal
      (e := e₀.listen "watch") hnone true [.run, .run, .run]
    rw [hincidents] at hremembered
    have hpending := (hstopped [.returned .exhausted] .stopped _ hincidents).mp rfl
    exact ⟨e₀, rfl, hincidents, hremembered, hpending.2⟩

/-! ## 3. A request that outlives its run -/

/-- A source whose doubles are on a tape; behind it they are zero. -/
structure Tape where
  units : List Float

instance : RandomSource Tape where
  below _ h s := (⟨0, h⟩, s)
  unit s := (s.units.headD 0.0, ⟨s.units.tail⟩)

/-- Two rows with an input whose name cannot be written in a compiled expression. -/
def Dataset.braced : Dataset where
  names := ["a\x7bb"]
  rows := [[1.0], [2.0]]
  targets := [1.0, 2.0]
  width := by simp
  count := by simp
  distinct := by simp

/-- A compiled evolution of a single candidate, which is a terminal, for no generations. -/
def Evolution.braced (units : List Float) : Except Failure (Evolution Tape) :=
  (Configuration.usual.setAll [(.populationSize, .int 1), (.eliteCount, .int 0),
    (.maxGenerations, .int 0), (.maxTreeLength, .int 1), (.maxTreeDepth, .int 1)]).evolutionWith
      .braced none (.ok ⟨units⟩)

/-- **A request outlives a run that fails.**  A stop is asked for, and the first run fails to score
its candidate, the input.  The second, without a new request and with a constant for a candidate,
ends stopped. -/
theorem Evolution.stopped_after_failure : ∃ e₀ : Evolution Tape,
    Evolution.braced [0.0, 0.9] = .ok e₀ ∧ e₀.stopRequested = false ∧
      ((Chronicle.mk e₀ () []).obeyAll .silent [.stop, .run, .run]).incidents =
        [.returned .stopped, .failed (.invalid (.template .unclosedField)), .asked] := by
  have hruns : ((Evolution.braced [0.0, 0.9]).toOption.any fun e₀ => !e₀.stopRequested &&
      ((Chronicle.mk e₀ () []).obeyAll .silent [.stop, .run, .run]).incidents =
        [.returned .stopped, .failed (.invalid (.template .unclosedField)), .asked]) = true := by
    decide +kernel
  cases hbraced : Evolution.braced [0.0, 0.9] with
  | error failure => simp [hbraced, Except.toOption] at hruns
  | ok e₀ =>
    simp only [hbraced, Except.toOption, Option.any_some, Bool.and_eq_true, Bool.not_eq_true',
      decide_eq_true_eq] at hruns
    exact ⟨e₀, rfl, hruns⟩

end FormulaEvolution
