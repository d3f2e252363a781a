/-
# Evolutions after a start

What a successful start and a successful advance have done, told once and in full (`start_ok`,
`advance_ok`, `offspring_ok`), and the evolutions that can come after a start.

* `Evolution.Reached e₀ e`: `e` is what `e₀` has become after a start and any steps, of which some
  may have failed.  This is what invariants of the candidates are about.
* `Evolution.Lineage e₀ ps e`: `e` is what `e₀` has become once the populations `ps` have been in
  place, one after the other.  A start and successful steps make a lineage, and so would components
  of any other kind.  This is what statements about a whole run are about.

Between two generations the phase, the listeners, a wish to stop and the random source may be
changed from outside (`Evolution.Aside`); a run does so too.

What listeners and the signal keep of their surroundings, a run keeps (`run_keeps`).
-/
import FormulaEvolution.Algorithm.Run
import FormulaEvolution.Configuration.Assembly
import FormulaEvolution.Proofs.Random.Outcome
import FormulaEvolution.Proofs.Sequence
import Mathlib.Data.List.Forall2

namespace FormulaEvolution

/-! ## 1. Parts and limits -/

theorem needPart_ok {α : Type} {name : String} {part : Option α} {a : α}
    (h : needPart name part = .ok a) : part = some a := by
  cases part with
  | none => cases h
  | some b => simpa [needPart] using h

/-- The parts of an equipment, with a source that may be missing. -/
def Equipment.parts {σ : Type} (q : Equipment) (source : Option σ) : Parts σ where
  grammar := some q.grammar
  creator := some q.creator
  crossover := some q.crossover
  mutator := some q.mutator
  tournamentSize := some q.tournamentSize
  source := source
  evaluator := some q.evaluator

theorem Equipment.parts_inj {σ : Type} {q q' : Equipment} {source source' : Option σ}
    (h : q.parts source = q'.parts source') : q = q' ∧ source = source' := by
  cases q
  cases q'
  simp only [parts, Parts.mk.injEq, Option.some.injEq] at h
  obtain ⟨rfl, rfl, rfl, rfl, rfl, rfl, rfl⟩ := h
  exact ⟨rfl, rfl⟩

/-- Complete parts are those of an equipment with a source. -/
theorem Parts.complete_ok {σ : Type} {p : Parts σ} {q : Equipment} {source : σ}
    (h : p.complete = .ok (q, source)) : p = q.parts (some source) := by
  cases p
  unfold complete at h
  obtain ⟨grammar, hgrammar, h⟩ := Except.bind_ok h
  obtain ⟨creator, hcreator, h⟩ := Except.bind_ok h
  obtain ⟨crossover, hcrossover, h⟩ := Except.bind_ok h
  obtain ⟨mutator, hmutator, h⟩ := Except.bind_ok h
  obtain ⟨tournamentSize, htournament, h⟩ := Except.bind_ok h
  obtain ⟨source', hsource, h⟩ := Except.bind_ok h
  obtain ⟨evaluator, hevaluator, h⟩ := Except.bind_ok h
  cases h
  simp only [Equipment.parts, Parts.mk.injEq]
  exact ⟨needPart_ok hgrammar, needPart_ok hcreator, needPart_ok hcrossover, needPart_ok hmutator,
    needPart_ok htournament, needPart_ok hsource, needPart_ok hevaluator⟩

/-- With a source, the parts of an equipment are complete. -/
theorem Equipment.complete_parts {σ : Type} (q : Equipment) (source : σ) :
    (q.parts (some source)).complete = .ok (q, source) := rfl

theorem checkProbability_ok_iff {name : String} {p : Float} :
    checkProbability name p = .ok () ↔ 0.0 ≤ p ∧ p ≤ 1.0 := by
  unfold checkProbability
  by_cases h : 0.0 ≤ p ∧ p ≤ 1.0
  · simp [h]
  · rw [if_neg (by simpa [Bool.and_eq_true] using h)]
    simp [h]

/-- **What limits that pass the check are like.** -/
theorem Limits.check_ok_iff {l : Limits} : l.check = .ok () ↔
    1 ≤ l.populationSize ∧ 0 ≤ l.maxGenerations ∧ (1 ≤ l.maxLength ∧ 1 ≤ l.maxDepth) ∧
      (0.0 ≤ l.crossoverProbability ∧ l.crossoverProbability ≤ 1.0) ∧
      (0.0 ≤ l.mutationProbability ∧ l.mutationProbability ≤ 1.0) ∧
      0 ≤ l.eliteCount ∧ l.eliteCount ≤ l.populationSize := by
  unfold check
  rw [Except.refuse_ok_iff, Except.refuse_ok_iff, Except.refuse_ok_iff, Except.then_ok_iff,
    Except.then_ok_iff, checkProbability_ok_iff, checkProbability_ok_iff, Except.refuse_last_iff]
  simp only [not_or, Int.not_lt]

/-- Limits that pass the check bound a population and its trees from below. -/
theorem Limits.check_ok {l : Limits} (h : l.check = .ok ()) :
    1 ≤ l.populationSize ∧ 1 ≤ l.maxLength ∧ 1 ≤ l.maxDepth := by
  obtain ⟨hsize, -, hbudgets, -⟩ := Limits.check_ok_iff.mp h
  exact ⟨hsize, hbudgets⟩

/-! ## 2. Drawing and scoring many -/

/-- Draws that are made so many times give as many values. -/
theorem Draws.yields_drawMany {σ α : Type} {draws : Draws σ α} {P : α → Prop}
    (h : draws.Yields P) : ∀ n : Nat,
      (drawMany draws n).Yields fun xs => xs.length = n ∧ ∀ x ∈ xs, P x
  | 0 => Draws.yields_pure ⟨rfl, by simp⟩
  | n + 1 => by
    refine Draws.yields_bind h fun a ha => ?_
    refine Draws.yields_bind (yields_drawMany h n) fun xs ⟨hlength, hall⟩ => ?_
    refine Draws.yields_pure ⟨by simp [hlength], fun x hx => ?_⟩
    rcases List.mem_cons.mp hx with rfl | hx
    · exact ha
    · exact hall x hx

/-- Scoring gives candidates a fitness and nothing else. -/
theorem scoreInOrder_ok {e : Evaluator} : ∀ {xs ys : List Individual},
    scoreInOrder e xs = (ys, .ok ()) →
      List.Forall₂ (fun x y => y.tree = x.tree ∧
        ∃ fitness, e.fitness x.tree = .ok fitness ∧ y.fitness = some fitness) xs ys
  | [], ys, h => by
    simp only [scoreInOrder, Prod.mk.injEq, and_true] at h
    exact h ▸ .nil
  | x :: xs, ys, h => by
    unfold scoreInOrder at h
    split at h
    · simp at h
    · next fitness hfitness =>
      simp only [Prod.mk.injEq] at h
      obtain ⟨rfl, hrest⟩ := h
      exact .cons ⟨rfl, fitness, hfitness, rfl⟩ (scoreInOrder_ok (Prod.ext rfl hrest))

/-- **Scoring together fails where scoring in order does**, and with the same failure; it tells apart only
what is left of the candidates then. -/
theorem scoreAll_snd (e : Evaluator) (together : Bool) (xs : List Individual) :
    (scoreAll e together xs).2 = (scoreInOrder e xs).2 := by
  unfold scoreAll
  split
  · next hscored => rw [hscored]
  · next hfailed => rw [hfailed]

/-- Scoring together that succeeds is scoring in order that does. -/
theorem scoreAll_ok_iff {e : Evaluator} {together : Bool} {xs ys : List Individual} :
    scoreAll e together xs = (ys, .ok ()) ↔ scoreInOrder e xs = (ys, .ok ()) := by
  constructor
  · intro h
    unfold scoreAll at h
    split at h
    · next ys' hscored => simpa [hscored] using h
    · simp at h
  · intro h
    simp only [scoreAll, h]

/-! ## 3. Starts and steps -/

namespace Evolution

variable {σ τ : Type} [RandomSource σ] {e e' : Evolution σ}

/-- The first generation, once it has been created and scored. -/
def founded (e : Evolution σ) (source : σ) (p : Population) : Evolution σ :=
  { ({ e.restart.withSource (some source) with population := p }).noteBest with
    phase := .initialized }

/-- **A start that succeeds has created a population with the equipment, scored it, and put it in
place as the first generation.** -/
theorem start_ok (h : e.start = (.ok (), e')) :
    ∃ q source created source' p, e.ready = .ok (q, source) ∧
      (drawMany (createOne q e.limits) e.limits.populationSize.toNat).runFrom source =
        (.ok created, source') ∧
      scoreInOrder q.evaluator created = (p, .ok ()) ∧ e' = e.founded source' p := by
  unfold start at h
  split at h
  · simp at h
  · next q source hready =>
    simp only at h
    split at h
    · simp at h
    · next created hcreated =>
      split at h
      · simp at h
      · next hscored =>
        refine ⟨q, source, created, _, _, hready, Prod.ext hcreated rfl,
          scoreAll_ok_iff.mp (Prod.ext rfl hscored), ?_⟩
        exact (Prod.ext_iff.mp h).2.symm

/-- Candidates that can be created and scored make a start that succeeds. -/
theorem start_of_draws {q : Equipment} {source source' : σ} {created : List Individual}
    {p : Population} (hready : e.ready = .ok (q, source))
    (hcreated : (drawMany (createOne q e.limits) e.limits.populationSize.toNat).runFrom source =
      (.ok created, source'))
    (hscored : scoreInOrder q.evaluator created = (p, .ok ())) :
    e.start = (.ok (), e.founded source' p) := by
  have hlimits : e.restart.limits = e.limits := rfl
  simp only [start, hready, hlimits, hcreated, scoreAll_ok_iff.mpr hscored]
  rfl

omit [RandomSource σ] in
theorem ready_ok {q : Equipment} {source : σ} (h : e.ready = .ok (q, source)) :
    e.parts.complete = .ok (q, source) ∧ e.limits.check = .ok () := by
  unfold ready at h
  obtain ⟨parts, hparts, h⟩ := Except.bind_ok h
  obtain ⟨_, hcheck, h⟩ := Except.bind_ok h
  cases h
  exact ⟨hparts, hcheck⟩

/-- **An advance that succeeds has bred candidates and put them in place behind the elite.** -/
theorem advance_ok (h : e.advance = (.ok (), e')) :
    ∃ bred source, e.offspring e.offspringCount = (.ok bred, source) ∧
      e' = (e.withSource source).install (e.elite ++ bred) := by
  unfold advance at h
  split at h
  next bred source hbred =>
    simp only at h
    split at h
    · simp at h
    · next individuals =>
      simp only [Prod.mk.injEq, true_and] at h
      exact ⟨individuals, source, hbred, h.symm⟩

/-- An advance succeeds if candidates can be bred. -/
theorem advance_of_offspring {bred : List Individual} {source : Option σ}
    (h : e.offspring e.offspringCount = (.ok bred, source)) :
    e.advance = (.ok (), (e.withSource source).install (e.elite ++ bred)) := by
  simp only [advance, h]

/-- An advance that fails leaves everything but the random source. -/
theorem advance_error {failure : Failure} (h : e.advance = (.error failure, e')) :
    ∃ source, e' = e.withSource source := by
  unfold advance at h
  split at h
  next bred source hbred =>
    simp only at h
    split at h
    · simp only [Prod.mk.injEq] at h
      exact ⟨source, h.2.symm⟩
    · simp at h

/-- Candidates that have been bred were drawn one after the other and then scored. -/
theorem offspring_ok {count : Nat} {bred : List Individual} {source' : Option σ}
    (h : e.offspring count = (.ok bred, source')) : (count = 0 ∧ bred = []) ∨
      ∃ q source drawn source'', e.parts.complete = .ok (q, source) ∧
        (drawMany (breedOne q e.limits e.population) count).runFrom source =
          (.ok drawn, source'') ∧
        scoreInOrder q.evaluator drawn = (bred, .ok ()) := by
  unfold offspring at h
  split at h
  · simp only [Prod.mk.injEq, Except.ok.injEq] at h
    exact .inl ⟨rfl, h.1.symm⟩
  · simp at h
  · next n q source hcomplete =>
    right
    simp only [Prod.mk.injEq] at h
    obtain ⟨drawn, hdrawn, hscored⟩ := Except.bind_ok h.1
    refine ⟨q, source, drawn, _, hcomplete, Prod.ext hdrawn rfl, ?_⟩
    split at hscored
    · next individuals hall =>
      rw [scoreAll_ok_iff.mp hall]
      simpa using hscored
    · simp at hscored

/-- Candidates that can be drawn and scored are bred. -/
theorem offspring_of_draws {q : Equipment} {source source' : σ} {n : Nat}
    {drawn bred : List Individual} (hcomplete : e.parts.complete = .ok (q, source))
    (hdrawn : (drawMany (breedOne q e.limits e.population) (n + 1)).runFrom source =
      (.ok drawn, source'))
    (hscored : scoreInOrder q.evaluator drawn = (bred, .ok ())) :
    e.offspring (n + 1) = (.ok bred, some source') := by
  simp only [offspring, hcomplete, hdrawn, bind, Except.bind, scoreAll_ok_iff.mpr hscored]

omit [RandomSource σ] in
theorem enrol_eq (changes : List Enrolment) :
    ∀ e : Evolution σ, ∃ listeners, (e.enrol changes).2 = { e with listeners } := by
  induction changes with
  | nil => exact fun e => ⟨e.listeners, rfl⟩
  | cons change changes ih =>
    intro e
    cases change with
    | join name => exact ih (e.listen name)
    | leave name =>
      simp only [enrol, unlisten]
      split
      · next left hleft =>
        split at hleft
        · cases hleft
          exact ih _
        · cases hleft
      · exact ⟨e.listeners, rfl⟩

omit [RandomSource σ] in
theorem heed_eq (e : Evolution σ) (reaction : Reaction) :
    ∃ listeners, (e.heed reaction).2 =
      { e with stopRequested := e.stopRequested || reaction.stop, listeners } := by
  obtain ⟨listeners, hlisteners⟩ :=
    enrol_eq reaction.enrolments { e with stopRequested := e.stopRequested || reaction.stop }
  refine ⟨listeners, ?_⟩
  rw [← hlisteners]
  unfold heed
  split
  · next hrefused => rw [hrefused]
  · next henrolled =>
    rw [henrolled]
    split <;> rfl

omit [RandomSource σ] in
theorem tell_eq (s : Surroundings τ) (event : GenerationEvent) (names : List String) :
    ∀ (e : Evolution σ) (t : τ), ∃ stop listeners,
      (tell s event names e t).2.1 = { e with stopRequested := stop, listeners } := by
  induction names with
  | nil => exact fun e t => ⟨e.stopRequested, e.listeners, rfl⟩
  | cons name names ih =>
    intro e t
    obtain ⟨listeners, hheeded⟩ := heed_eq e (s.hear name event t).1
    simp only [tell]
    split
    · next hfailed =>
      rw [hfailed] at hheeded
      exact ⟨_, listeners, hheeded⟩
    · next hdone =>
      rw [hdone] at hheeded
      obtain rfl := hheeded
      exact ih _ _

omit [RandomSource σ] in
/-- Telling the listeners changes nothing but the wish to stop and who listens. -/
theorem announce_eq (s : Surroundings τ) (e : Evolution σ) (t : τ) :
    ∃ stop listeners, (announce s e t).2.1 = { e with stopRequested := stop, listeners } :=
  tell_eq s e.event e.listeners e t

/-- Where nobody listens, a step is an advance. -/
theorem step_of_advance (s : Surroundings τ) (t : τ) (hadvance : e.advance = (.ok (), e'))
    (hlisteners : e'.listeners = []) : e.step s t = (.ok (), e', t) := by
  simp only [step, hadvance, announce, hlisteners, tell]

/-- A step that succeeds is an advance that succeeds, and then the listeners are told. -/
theorem step_ok {s : Surroundings τ} {t t' : τ} (h : e.step s t = (.ok (), e', t')) :
    ∃ next stop listeners, e.advance = (.ok (), next) ∧
      e' = { next with stopRequested := stop, listeners } := by
  unfold step at h
  split at h
  · simp at h
  · next next hadvance =>
    obtain ⟨stop, listeners, hstop⟩ := announce_eq s next t
    refine ⟨next, stop, listeners, hadvance, ?_⟩
    rw [← hstop, h]

/-- Whatever comes of a step, it has either put the next generation in place or failed and left the
one before there. -/
theorem step_cases (s : Surroundings τ) (e : Evolution σ) (t : τ) :
    (∃ next stop listeners, e.advance = (.ok (), next) ∧
      (e.step s t).2.1 = { next with stopRequested := stop, listeners }) ∨
    ∃ failure source, e.step s t = (.error failure, e.withSource source, t) := by
  unfold step
  split
  · next failure next hadvance =>
    obtain ⟨source, rfl⟩ := advance_error hadvance
    exact .inr ⟨failure, source, rfl⟩
  · next next hadvance =>
    obtain ⟨stop, listeners, hstop⟩ := announce_eq s next t
    exact .inl ⟨next, stop, listeners, hadvance, hstop⟩

/-- The first generation of a start that succeeds is not empty. -/
theorem start_population_ne_nil (h : e.start = (.ok (), e')) :
    ∃ source p, p ≠ [] ∧ e' = e.founded source p := by
  obtain ⟨q, source, created, source', p, hready, hcreated, hscored, he'⟩ := start_ok h
  refine ⟨source', p, fun hnil => ?_, he'⟩
  have hsize := (Limits.check_ok (ready_ok hready).2).1
  have hlength := (Draws.yields_drawMany (P := fun _ => True) (fun _ _ _ _ => trivial) _ _ _ _
    hcreated).1
  have hscores := (scoreInOrder_ok hscored).length_eq
  rw [hnil, List.length_nil] at hscores
  omega

/-! ## 4. After a start -/

/-- What may happen to an evolution between two generations. -/
def Aside (e e' : Evolution σ) : Prop :=
  ∃ phase stopRequested listeners source,
    e' = { e.withSource source with phase, stopRequested, listeners }

/-- What an evolution may have become after a start and steps that may have failed. -/
inductive Reached (e₀ : Evolution σ) : Evolution σ → Prop
  | start {e : Evolution σ} : e₀.start = (.ok (), e) → Reached e₀ e
  | restart {e e' : Evolution σ} : Reached e₀ e → e.start = (.ok (), e') → Reached e₀ e'
  | step {υ : Type} {e : Evolution σ} (s : Surroundings υ) (t : υ) : Reached e₀ e →
      Reached e₀ (e.step s t).2.1
  | aside {e e' : Evolution σ} : Reached e₀ e → Aside e e' → Reached e₀ e'

/-- What an evolution has become after a first generation and others that took its place, with all
these populations in order.  Which components have made and scored the populations does not
matter. -/
inductive Lineage (e₀ : Evolution σ) : List Population → Evolution σ → Prop
  | founded (source : σ) {p : Population} : p ≠ [] → Lineage e₀ [p] (e₀.founded source p)
  | installed (source : Option σ) (p : Population) {ps : List Population} {e : Evolution σ} :
      Lineage e₀ ps e → Lineage e₀ (ps ++ [p]) ((e.withSource source).install p)
  | aside {ps : List Population} {e e' : Evolution σ} : Lineage e₀ ps e → Aside e e' →
      Lineage e₀ ps e'

omit [RandomSource σ] in
theorem Aside.phase (e : Evolution σ) (phase : Phase) (stop : Bool) :
    Aside e { e with phase, stopRequested := stop } :=
  ⟨phase, stop, e.listeners, e.parts.source, rfl⟩

omit [RandomSource σ] in
theorem Aside.told (e : Evolution σ) (stop : Bool) (listeners : List String) :
    Aside e { e with stopRequested := stop, listeners } :=
  ⟨e.phase, stop, listeners, e.parts.source, rfl⟩

omit [RandomSource σ] in
theorem Aside.source (e : Evolution σ) (source : Option σ) : Aside e (e.withSource source) :=
  ⟨e.phase, e.stopRequested, e.listeners, source, rfl⟩

/-- **A start that succeeds begins a lineage.** -/
theorem Lineage.start {e₀ : Evolution σ} (h : e₀.start = (.ok (), e)) :
    Lineage e₀ [e.population] e := by
  obtain ⟨source, p, hp, rfl⟩ := start_population_ne_nil h
  exact .founded source hp

/-- **A step that succeeds adds one population to a lineage.** -/
theorem Lineage.step {e₀ : Evolution σ} {ps : List Population} {s : Surroundings τ} {t t' : τ}
    (h : Lineage e₀ ps e) (hstep : e.step s t = (.ok (), e', t')) :
    Lineage e₀ (ps ++ [e'.population]) e' := by
  obtain ⟨next, stop, listeners, hadvance, rfl⟩ := step_ok hstep
  obtain ⟨bred, source, _, rfl⟩ := advance_ok hadvance
  exact (h.installed source (e.elite ++ bred)).aside (Aside.told _ stop listeners)

theorem Reached.runOn {e₀ : Evolution σ} (s : Surroundings τ) : ∀ (bound : Nat) {e : Evolution σ}
    (t : τ), Reached e₀ e → Reached e₀ (e.runOn s bound t).2.1
  | 0, e, t, h => h.aside (Aside.phase e _ _)
  | bound + 1, e, t, h => by
    have hstep := h.step s (ending s e t).2
    unfold Evolution.runOn
    split
    · exact h.aside (Aside.phase e _ _)
    · next t' hending =>
      rw [hending] at hstep
      split
      · next hfailed => rw [hfailed] at hstep; exact hstep
      · next e' t'' hdone =>
        rw [hdone] at hstep
        exact Reached.runOn s bound t'' hstep

/-- **A run that gets past its start stays among what can be reached.** -/
theorem reached_of_run (s : Surroundings τ) {e₀ e : Evolution σ} (t : τ)
    (h : e₀.start = (.ok (), e)) : Reached e₀ (e₀.run s t).2.1 := by
  unfold run
  rw [h]
  exact Reached.runOn s _ t ((Reached.start h).aside (Aside.phase e _ _))

/-! ## 5. What surroundings keep -/

section Surroundings

variable {s : Surroundings τ} {P : τ → Prop}

omit [RandomSource σ] in
/-- What every listener keeps is kept while an event is told. -/
theorem tell_keeps (hhear : ∀ name event t, P t → P (s.hear name event t).2)
    (event : GenerationEvent) : ∀ (names : List String) (e : Evolution σ) (t : τ), P t →
      P (tell s event names e t).2.2
  | [], _, _, h => h
  | name :: names, e, t, h => by
    have hheard := hhear name event t h
    unfold tell
    simp only
    split
    · exact hheard
    · exact tell_keeps hhear event names _ _ hheard

omit [RandomSource σ] in
/-- What the signal keeps is kept at a boundary. -/
theorem ending_keeps (hsignal : ∀ t, P t → P (s.signal t).2) (e : Evolution σ) {t : τ} (h : P t) :
    P (ending s e t).2 := by
  have hdue : P (stopDue s e t).2 := by
    unfold stopDue
    split
    · exact h
    · exact hsignal t h
  unfold ending
  split
  · exact h
  · simp only
    split
    · exact hdue
    · split <;> exact hdue

theorem step_keeps (hhear : ∀ name event t, P t → P (s.hear name event t).2) (e : Evolution σ)
    {t : τ} (h : P t) : P (step s e t).2.2 := by
  unfold step
  split
  · exact h
  · exact tell_keeps hhear _ _ _ _ h

theorem runOn_keeps (hhear : ∀ name event t, P t → P (s.hear name event t).2)
    (hsignal : ∀ t, P t → P (s.signal t).2) : ∀ (bound : Nat) (e : Evolution σ) {t : τ}, P t →
      P (runOn s bound e t).2.2
  | 0, e, _, h => ending_keeps hsignal e h
  | bound + 1, e, t, h => by
    have hending := ending_keeps hsignal e h
    unfold runOn
    split
    · next phase t' heq =>
      rw [heq] at hending
      exact hending
    · next t' heq =>
      rw [heq] at hending
      have hstep := step_keeps hhear e hending
      split
      · next hfailed =>
        rw [hfailed] at hstep
        exact hstep
      · next hdone =>
        rw [hdone] at hstep
        exact runOn_keeps hhear hsignal bound _ hstep

/-- **What the listeners and the signal keep is kept by a run.** -/
theorem run_keeps (hhear : ∀ name event t, P t → P (s.hear name event t).2)
    (hsignal : ∀ t, P t → P (s.signal t).2) (e : Evolution σ) {t : τ} (h : P t) :
    P (run s e t).2.2 := by
  unfold run
  split
  · exact h
  · exact runOn_keeps hhear hsignal _ _ h

end Surroundings

end Evolution

/-! ## 6. A small run -/

/-- A source that always draws the least. -/
structure Steady where

instance : RandomSource Steady where
  below _ h s := (⟨0, h⟩, s)
  unit s := (0.0, s)

/-- Surroundings in which nothing happens. -/
def Surroundings.silent : Surroundings Unit where
  hear _ _ t := ({}, t)
  signal t := (false, t)

/-- A configuration for two candidates. -/
def Configuration.small : Configuration :=
  usual.setAll [(.populationSize, .int 2), (.eliteCount, .int 0), (.compilation, .bool false)]

/-- One row with one input. -/
def Dataset.small : Dataset where
  names := ["x"]
  rows := [[1.0]]
  targets := [2.0]
  width := by simp
  count := rfl
  distinct := by simp

/-- The evolution of the small configuration over the small dataset. -/
def Evolution.small : Except Failure (Evolution Steady) :=
  Configuration.small.evolutionWith .small none (.ok ⟨⟩)

/-- The small evolution can be started, and makes a step. -/
theorem Evolution.small_runs : ∃ e₀ e e' : Evolution Steady, Evolution.small = .ok e₀ ∧
    e₀.start = (.ok (), e) ∧ e.step .silent () = (.ok (), e', ()) := by
  have hruns : (Evolution.small.toOption.any fun e₀ =>
      e₀.start.1.toBool && (e₀.start.2.step .silent ()).1.toBool) = true := by decide +kernel
  cases hsmall : Evolution.small with
  | error failure => simp [hsmall, Except.toOption] at hruns
  | ok e₀ =>
    simp only [hsmall, Except.toOption, Option.any_some, Bool.and_eq_true] at hruns
    refine ⟨e₀, e₀.start.2, (e₀.start.2.step .silent ()).2.1, rfl, ?_, ?_⟩
    · exact Prod.ext (Except.eq_ok_of_toBool hruns.1) rfl
    · exact Prod.ext (Except.eq_ok_of_toBool hruns.2) rfl

end FormulaEvolution
