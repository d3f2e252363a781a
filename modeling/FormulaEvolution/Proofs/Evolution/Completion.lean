/-
# Runs that cannot fail

An evolution with all its parts, of which the evaluator scores every tree within the budget, and to
which nobody listens, runs to its end from any source and in any surroundings, and then has a best
candidate (`run_of_serves`).

The argument is one of progress.  `Evolution.Live` says what a generation in place is like: it keeps
the budget, is sound, and has the parts to breed from.  Live evolutions can advance, and stay live.
Each of the things that could go wrong on the way is ruled out by one part of this: no draw is from
nothing, for the population is not empty; the operators return, for the parents are within the
budget; scoring returns, for the children are too.

If there are no generations to go, listeners make no difference (`run_of_no_generations`).
-/
import FormulaEvolution.Proofs.Evolution.Budget
import FormulaEvolution.Proofs.Evolution.Elite

namespace FormulaEvolution

/-! ## 1. Drawing and scoring many -/

/-- Draws that return can be made any number of times. -/
theorem Draws.returns_drawMany {σ α : Type} {draws : Draws σ α} {P : α → Prop}
    (h : draws.Returns P) : ∀ n : Nat, (drawMany draws n).Returns fun xs => ∀ x ∈ xs, P x
  | 0 => Draws.returns_pure (by simp)
  | n + 1 => by
    refine Draws.returns_bind h fun a ha => ?_
    refine Draws.returns_bind (returns_drawMany h n) fun xs hxs => Draws.returns_pure fun x hx => ?_
    rcases List.mem_cons.mp hx with rfl | hx
    · exact ha
    · exact hxs x hx

/-- Candidates who can each be scored can be scored in order. -/
theorem scoreInOrder_returns {e : Evaluator} : ∀ {xs : List Individual},
    (∀ x ∈ xs, ∃ fitness, e.fitness x.tree = .ok fitness) →
      ∃ ys, scoreInOrder e xs = (ys, .ok ())
  | [], _ => ⟨[], rfl⟩
  | x :: xs, h => by
    obtain ⟨fitness, hfitness⟩ := h x List.mem_cons_self
    obtain ⟨ys, hys⟩ := scoreInOrder_returns fun y hy => h y (List.mem_cons_of_mem x hy)
    exact ⟨{ x with fitness := some fitness } :: ys, by simp only [scoreInOrder, hfitness, hys]⟩

/-! ## 2. Equipment that serves -/

/-- Equipment with which runs cannot fail: it is made for a budget that the limits agree with, and
it scores every tree within the budget. -/
structure Equipment.Serves (q : Equipment) (l : Limits) (b : Budget) (g : Grammar) : Prop where
  made : q.MadeFor b g
  checked : l.check = .ok ()
  maxLength : l.maxLength = b.maxLength
  maxDepth : l.maxDepth = b.maxDepth
  scores : ∀ t, b.Contains g t → ∃ fitness, q.evaluator.fitness (some t) = .ok fitness

variable {σ τ : Type} [RandomSource σ] {q : Equipment} {l : Limits} {b : Budget} {g : Grammar}

omit [RandomSource σ] in
/-- The least budget that passes the check is one node on one level. -/
theorem Equipment.Serves.positive (h : q.Serves l b g) : 1 ≤ b.maxLength ∧ 1 ≤ b.maxDepth := by
  obtain ⟨-, hlength, hdepth⟩ := Limits.check_ok h.checked
  exact ⟨h.maxLength ▸ hlength, h.maxDepth ▸ hdepth⟩

/-- Candidates within the budget can be scored. -/
theorem Equipment.Serves.scoreInOrder (h : q.Serves l b g) {xs : List Individual}
    (hxs : ∀ x ∈ xs, x.Within b g) :
    ∃ ys, FormulaEvolution.scoreInOrder q.evaluator xs = (ys, .ok ()) := by
  refine scoreInOrder_returns fun x hx => ?_
  obtain ⟨t, ht, hcontains⟩ := hxs x hx
  exact ht ▸ h.scores t hcontains

namespace Evolution

variable {e : Evolution σ}

/-- An evolution that has this equipment, a source and these limits, and to which nobody listens. -/
structure Has (q : Equipment) (l : Limits) (e : Evolution σ) : Prop where
  parts : ∃ source, e.parts = q.parts (some source)
  limits : e.limits = l
  unheard : e.listeners = []

/-- A generation in place from which another one can be bred. -/
structure Live (q : Equipment) (l : Limits) (b : Budget) (g : Grammar) (e : Evolution σ) :
    Prop where
  has : e.Has q l
  keeps : e.Keeps b g
  sound : Sound q.evaluator l e

omit [RandomSource σ] in
theorem Has.equipped (h : e.Has q l) (hq : q.Serves l b g) : e.Equipped b g := by
  obtain ⟨source, hparts⟩ := h.parts
  refine ⟨h.limits ▸ hq.maxLength, h.limits ▸ hq.maxDepth, q, hq.made, ?_⟩
  rw [hparts]
  rfl

omit [RandomSource σ] in
theorem Has.withSource (h : e.Has q l) (source : σ) : (e.withSource (some source)).Has q l := by
  obtain ⟨before, hparts⟩ := h.parts
  refine ⟨⟨source, ?_⟩, h.limits, h.unheard⟩
  rw [Evolution.withSource, hparts]
  rfl

/-! ## 3. Progress -/

omit [RandomSource σ] in
theorem Has.ready (h : e.Has q l) (hq : q.Serves l b g) : ∃ source, e.ready = .ok (q, source) := by
  obtain ⟨source, hparts⟩ := h.parts
  refine ⟨source, ?_⟩
  unfold Evolution.ready
  rw [hparts, h.limits, q.complete_parts, hq.checked]
  rfl

/-- **A start cannot fail.** -/
theorem start_of_serves (h : e.Has q l) (hq : q.Serves l b g) :
    ∃ e', e.start = (.ok (), e') ∧ e'.Live q l b g := by
  obtain ⟨source, hready⟩ := h.ready hq
  have hcreate := Draws.returns_drawMany
    (returns_createOne (σ := σ) hq.made hq.maxLength hq.maxDepth hq.positive)
    l.populationSize.toNat
  obtain ⟨created, source', hcreated, hwithin⟩ := hcreate source
  obtain ⟨p, hscored⟩ := hq.scoreInOrder hwithin
  -- From here on it is known what the start does; that it leaves a live evolution is known of
  -- starts that succeed.
  obtain rfl := h.limits
  have hstart := start_of_draws hready hcreated hscored
  obtain ⟨evaluator, hevaluator, hsound⟩ := sound_of_start hstart
  obtain rfl : q.evaluator = evaluator :=
    Option.some.inj ((evaluator_of_complete (ready_ok hready).1).symm.trans hevaluator)
  have hhas := h.withSource source'
  exact ⟨_, hstart, ⟨hhas.parts, rfl, h.unheard⟩, keeps_of_start (h.equipped hq) hstart, hsound⟩

/-- **Breeding cannot fail**: there is someone to breed from. -/
theorem Live.offspring (h : e.Live q l b g) (hq : q.Serves l b g) (count : Nat) :
    ∃ bred source, e.offspring count = (.ok bred, some source) := by
  obtain ⟨source, hparts⟩ := h.has.parts
  cases count with
  | zero => exact ⟨[], source, by rw [Evolution.offspring, hparts]; rfl⟩
  | succ n =>
    -- A tournament needs a member, and a sound population has as many as a checked size asks for.
    have hne : e.population ≠ [] := by
      intro hnil
      have hsize := h.sound.size
      have hpositive := (Limits.check_ok hq.checked).1
      rw [hnil, List.length_nil] at hsize
      omega
    have hbreed := Draws.returns_drawMany
      (returns_breedOne (σ := σ) (l := e.limits) hq.made hq.positive hne h.keeps.population) (n + 1)
    obtain ⟨drawn, source', hdrawn, hwithin⟩ := hbreed source
    obtain ⟨bred, hscored⟩ := hq.scoreInOrder hwithin
    refine ⟨bred, source', offspring_of_draws ?_ hdrawn hscored⟩
    rw [hparts, q.complete_parts]

/-- **A live evolution advances, and stays live.** -/
theorem Live.advance (h : e.Live q l b g) (hq : q.Serves l b g) :
    ∃ e', e.advance = (.ok (), e') ∧ e'.Live q l b g := by
  obtain ⟨bred, source, hbred⟩ := h.offspring hq e.offspringCount
  have hadvance := advance_of_offspring hbred
  have hhas := h.has.withSource source
  exact ⟨_, hadvance, ⟨hhas.parts, hhas.limits, hhas.unheard⟩, keeps_of_advance h.keeps hadvance,
    (h.sound.advance hadvance).1⟩

/-- A step is then an advance, for nobody is told of it. -/
theorem Live.step (h : e.Live q l b g) (hq : q.Serves l b g) (s : Surroundings τ) (t : τ) :
    ∃ e', e.step s t = (.ok (), e', t) ∧ e'.Live q l b g := by
  obtain ⟨e', hadvance, hlive⟩ := h.advance hq
  exact ⟨e', step_of_advance s t hadvance hlive.has.unheard, hlive⟩

omit [RandomSource σ] in
/-- What happens at a boundary leaves an evolution live. -/
theorem Live.phase (h : e.Live q l b g) (phase : Phase) (stop : Bool) :
    ({ e with phase, stopRequested := stop } : Evolution σ).Live q l b g :=
  ⟨⟨h.has.parts, h.has.limits, h.has.unheard⟩, h.keeps.aside (Aside.phase e phase stop),
    h.sound.aside (Aside.phase e phase stop)⟩

/-- **Whatever the surroundings, live evolutions go on to the end.** -/
theorem Live.runOn (hq : q.Serves l b g) (s : Surroundings τ) : ∀ (bound : Nat) {e : Evolution σ}
    (t : τ), e.Live q l b g → ∃ e' t', e.runOn s bound t = (.ok (), e', t') ∧ e'.Live q l b g
  | 0, e, t, h => ⟨_, _, rfl, h.phase _ _⟩
  | bound + 1, e, t, h => by
    unfold Evolution.runOn
    split
    · exact ⟨_, _, rfl, h.phase _ _⟩
    · next t' _ =>
      obtain ⟨e', hstep, hlive⟩ := h.step hq s t'
      rw [hstep]
      exact Live.runOn hq s bound t' hlive

/-- **A run cannot fail, and in the end there is a best candidate.** -/
theorem run_of_serves (h : e.Has q l) (hq : q.Serves l b g) (s : Surroundings τ) (t : τ) :
    ∃ e' t', e.run s t = (.ok (), e', t') ∧ e'.Live q l b g := by
  obtain ⟨e₁, hstart, hlive⟩ := start_of_serves h hq
  unfold Evolution.run
  rw [hstart]
  exact (hlive.phase .running e₁.stopRequested).runOn hq s _ t

/-! ## 4. Runs of no generations -/

/-- Who listens does not matter to a start. -/
theorem start_of_listeners {e₁ : Evolution σ} (names : List String) (h : e.start = (.ok (), e₁)) :
    ∃ e₂, ({ e with listeners := names }).start = (.ok (), e₂) ∧ e₂.limits = e.limits ∧
      e₂.generation = 0 := by
  obtain ⟨q, source, created, source', p, hready, hcreated, hscored, -⟩ := start_ok h
  exact ⟨_, start_of_draws (e := { e with listeners := names }) hready hcreated hscored, rfl, rfl⟩

omit [RandomSource σ] in
/-- A signal that leaves its surroundings as they are shows nothing at a boundary. -/
theorem ending_of_signal {s : Surroundings τ} (hsignal : ∀ t, (s.signal t).2 = t) (e : Evolution σ)
    (t : τ) : (ending s e t).2 = t :=
  ending_keeps (P := (· = t)) (fun t' (h : t' = t) => (hsignal t').trans h) e rfl

/-- **Without generations to go a run ends where it has started**, and nobody is told anything. -/
theorem run_of_no_generations {e₁ : Evolution σ} {s : Surroundings τ} (names : List String) (t : τ)
    (hstart : e.start = (.ok (), e₁)) (hnone : e.limits.maxGenerations ≤ 0)
    (hsignal : ∀ t, (s.signal t).2 = t) :
    ∃ e', ({ e with listeners := names }).run s t = (.ok (), e', t) := by
  obtain ⟨e₂, hstarted, hlimits, hgeneration⟩ := start_of_listeners names hstart
  have hstill : ∀ e : Evolution σ, e.remaining = 0 →
      ∃ e', runOn s e.remaining e t = (.ok (), e', t) := by
    intro e hremaining
    refine ⟨e.finish ((ending s e t).1.getD .exhausted), ?_⟩
    rw [hremaining]
    exact congrArg (fun t' => (_, _, t')) (ending_of_signal hsignal e t)
  unfold Evolution.run
  rw [hstarted]
  refine hstill { e₂ with phase := .running } ?_
  show (e₂.limits.maxGenerations - e₂.generation).toNat = 0
  rw [hlimits, hgeneration]
  omega

end Evolution
end FormulaEvolution
