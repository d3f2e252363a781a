/-
# Generations and their elite

What every generation of a run is like, and how one follows another (`generations_of_reached`).

* A generation has as many candidates as asked for, and the fitness of each is the score of its own
  tree.  Bred candidates are scored before they are put in place; the elite is not scored again,
  but each of its members keeps tree and fitness together (`Sound`).
* A generation begins with the elite of the one before it: the front of that generation in a stable
  descending order by the keys of fitness (`Ranked`).  There is only one such order
  (`Ranked.unique`), so who belongs to the elite is settled among equals too.
* With a member in the elite, nothing that was good in a generation is lost in the next one.

The keys are compared as doubles; what is unscored or no number counts as minus infinity.
-/
import FormulaEvolution.Proofs.Evolution.Best
import FormulaEvolution.Proofs.Number.Comparison

namespace FormulaEvolution

/-! ## 1. Orders by fitness -/

/-- The candidates of a population whose keys have a rank, in order. -/
def Population.ofRank (p : Population) (rank : Int) : Population :=
  p.filter fun x => fitnessRank x.fitness = rank

/-- The candidates of a population in a stable descending order of their keys: candidates whose keys
have the same rank stand in the order of the population. -/
structure Ranked (p sorted : Population) : Prop where
  members : sorted.Perm p
  descending : sorted.Pairwise fun x y => fitnessKey y.fitness ≤ fitnessKey x.fitness
  stable : ∀ rank : Int, sorted.ofRank rank = p.ofRank rank

/-- **Sorting by fitness ranks a population.** -/
theorem ranked_sort (p : Population) : Ranked p (sortByFitness (·.fitness) p) where
  members := sortByFitness_perm Individual.fitness p
  descending := by
    refine (sortByFitness_pairwise Individual.fitness p).imp fun {x y} h => ?_
    exact (fitnessKey_le_iff (a := x.fitness) (b := y.fitness)).mpr h
  stable := sortByFitness_stable Individual.fitness p

section Orders

variable {p sorted sorted' : Population} {x y : Individual}

theorem fitnessKey_le_iff_rank {a b : Option Float} :
    fitnessKey b ≤ fitnessKey a ↔ fitnessRank b ≤ fitnessRank a := by
  rw [fitnessKey_le_iff, matchesOrBeats, decide_eq_true_eq]

/-- Whoever stands at the head of a descending order has the greatest rank. -/
theorem rank_le_head {rest : Population}
    (h : (x :: rest).Pairwise fun x y => fitnessKey y.fitness ≤ fitnessKey x.fitness)
    (hy : y ∈ x :: rest) : fitnessRank y.fitness ≤ fitnessRank x.fitness := by
  rcases List.mem_cons.mp hy with rfl | hy
  · exact Int.le_refl _
  · exact fitnessKey_le_iff_rank.mp ((List.pairwise_cons.mp h).1 y hy)

/-- Descending orders with the same candidates of each rank, in the same order, are the same.  Both
have a candidate of the greatest rank in front, and so they have the first one of that rank. -/
theorem eq_of_ranks : ∀ {sorted sorted' : Population},
    (sorted.Pairwise fun x y => fitnessKey y.fitness ≤ fitnessKey x.fitness) →
    (sorted'.Pairwise fun x y => fitnessKey y.fitness ≤ fitnessKey x.fitness) →
    (∀ rank : Int, sorted.ofRank rank = sorted'.ofRank rank) → sorted = sorted'
  | [], [], _, _, _ => rfl
  | [], y :: _, _, _, hranks => by
    simpa [Population.ofRank] using (hranks (fitnessRank y.fitness)).symm
  | x :: _, [], _, _, hranks => by simpa [Population.ofRank] using hranks (fitnessRank x.fitness)
  | x :: xs, y :: ys, hsorted, hsorted', hranks => by
    have hmem : ∀ z, z ∈ x :: xs ↔ z ∈ y :: ys := by
      intro z
      have hz := congrArg (z ∈ ·) (hranks (fitnessRank z.fitness))
      simpa [Population.ofRank, List.mem_filter] using hz
    have hrank : fitnessRank x.fitness = fitnessRank y.fitness :=
      Int.le_antisymm (rank_le_head hsorted' ((hmem x).mp List.mem_cons_self))
        (rank_le_head hsorted ((hmem y).mpr List.mem_cons_self))
    have hfront := hranks (fitnessRank x.fitness)
    simp only [Population.ofRank, List.filter_cons, hrank, decide_true, if_true] at hfront
    obtain rfl := (List.cons.inj hfront).1
    have hrest : xs = ys := by
      refine eq_of_ranks (List.pairwise_cons.mp hsorted).2 (List.pairwise_cons.mp hsorted').2
        fun rank => ?_
      have h := hranks rank
      simp only [Population.ofRank, List.filter_cons] at h
      split at h
      · exact (List.cons.inj h).2
      · exact h
    rw [hrest]

/-- **There is one stable descending order of a population.** -/
theorem Ranked.unique (h : Ranked p sorted) (h' : Ranked p sorted') : sorted = sorted' :=
  eq_of_ranks h.descending h'.descending fun rank => (h.stable rank).trans (h'.stable rank).symm

/-- Whoever is left out of the front of a ranked population is no better than anyone in it. -/
theorem Ranked.front (h : Ranked p sorted) (n : Nat) (hx : x ∈ sorted.take n)
    (hy : y ∈ sorted.drop n) : fitnessKey y.fitness ≤ fitnessKey x.fitness := by
  have hsplit := h.descending
  rw [← List.take_append_drop n sorted] at hsplit
  exact (List.pairwise_append.mp hsplit).2.2 x hx y hy

/-- Everyone is matched by someone in a front that is not empty. -/
theorem Ranked.matched (h : Ranked p sorted) {n : Nat} (hn : 1 ≤ n) (hy : y ∈ p) :
    ∃ x ∈ sorted.take n, fitnessKey y.fitness ≤ fitnessKey x.fitness := by
  have hy := h.members.mem_iff.mpr hy
  cases hsorted : sorted with
  | nil => simp [hsorted] at hy
  | cons x rest =>
    have hdescending := h.descending
    rw [hsorted] at hy hdescending
    refine ⟨x, ?_, fitnessKey_le_iff_rank.mpr (rank_le_head hdescending hy)⟩
    obtain ⟨m, rfl⟩ : ∃ m, n = m + 1 := ⟨n - 1, by omega⟩
    simp

end Orders

/-! ## 2. Scored candidates -/

/-- The fitness of a candidate is the score of its own tree. -/
def Individual.Scored (x : Individual) (evaluator : Evaluator) : Prop :=
  ∃ fitness, evaluator.fitness x.tree = .ok fitness ∧ x.fitness = some fitness

/-- Scoring scores everyone. -/
theorem scored_of_scoreInOrder {evaluator : Evaluator} {xs ys : List Individual}
    (h : scoreInOrder evaluator xs = (ys, .ok ())) :
    ys.length = xs.length ∧ ∀ y ∈ ys, y.Scored evaluator := by
  have hscored := scoreInOrder_ok h
  clear h
  induction hscored with
  | nil => simp
  | cons hxy _ ih =>
    obtain ⟨htree, fitness, hfitness, hy⟩ := hxy
    refine ⟨by simp [ih.1], fun z hz => ?_⟩
    rcases List.mem_cons.mp hz with rfl | hz
    · exact ⟨fitness, by rw [htree, hfitness], hy⟩
    · exact ih.2 z hz

namespace Evolution

variable {σ τ : Type} [RandomSource σ] {e e' e₀ : Evolution σ} {evaluator : Evaluator} {l : Limits}

/-- A generation in place: the population has the size asked for, its candidates are scored, and the
elite is no larger than it. -/
structure Sound (evaluator : Evaluator) (l : Limits) (e : Evolution σ) : Prop where
  equipped : e.parts.evaluator = some evaluator
  limits : e.limits = l
  range : 0 ≤ l.eliteCount ∧ l.eliteCount ≤ l.populationSize
  size : (e.population.length : Int) = l.populationSize
  scored : ∀ x ∈ e.population, x.Scored evaluator

omit [RandomSource σ] in
theorem Sound.aside (h : Sound evaluator l e) (haside : Aside e e') : Sound evaluator l e' := by
  obtain ⟨phase, stop, listeners, source, rfl⟩ := haside
  exact ⟨h.equipped, h.limits, h.range, h.size, h.scored⟩

omit [RandomSource σ] in
/-- Complete parts have the evaluator that is set. -/
theorem evaluator_of_complete {q : Equipment} {source : σ}
    (h : e.parts.complete = .ok (q, source)) : e.parts.evaluator = some q.evaluator := by
  rw [Parts.complete_ok h]
  rfl

/-- **A start that succeeds puts a sound generation in place.** -/
theorem sound_of_start (h : e.start = (.ok (), e')) :
    ∃ evaluator, e.parts.evaluator = some evaluator ∧ Sound evaluator e.limits e' := by
  obtain ⟨q, source, created, source', p, hready, hcreated, hscored, rfl⟩ := start_ok h
  obtain ⟨hcomplete, hcheck⟩ := ready_ok hready
  obtain ⟨hsize, -, -, -, -, helite⟩ := Limits.check_ok_iff.mp hcheck
  obtain ⟨hlength, hall⟩ := scored_of_scoreInOrder hscored
  have hcount := (Draws.yields_drawMany (P := fun _ => True) (fun _ _ _ _ => trivial) _ _ _ _
    hcreated).1
  have hevaluator := evaluator_of_complete hcomplete
  refine ⟨q.evaluator, hevaluator, hevaluator, rfl, helite, ?_, hall⟩
  show (p.length : Int) = e.limits.populationSize
  rw [hlength, hcount]
  omega

omit [RandomSource σ] in
/-- The elite of a sound generation is the front of its order, in full. -/
theorem Sound.elite_eq (h : Sound evaluator l e) :
    e.elite = (sortByFitness (·.fitness) e.population).take l.eliteCount.toNat ∧
      (e.elite.length : Int) = l.eliteCount := by
  have hrange := h.range
  have hsize := h.size
  have helite : e.elite = (sortByFitness (·.fitness) e.population).take l.eliteCount.toNat := by
    unfold elite Population.best takeFront
    rw [h.limits, if_neg (by omega)]
  refine ⟨helite, ?_⟩
  have hperm := (sortByFitness_perm (·.fitness) e.population).length_eq
  rw [helite, List.length_take, hperm]
  omega

/-- **Advancing from a sound generation fills up its elite with scored candidates.** -/
theorem Sound.advance (h : Sound evaluator l e) (hadvance : e.advance = (.ok (), e')) :
    Sound evaluator l e' ∧ e'.generation = e.generation + 1 ∧
      ∃ bred, e'.population = e.elite ++ bred := by
  obtain ⟨bred, source, hbred, rfl⟩ := advance_ok hadvance
  obtain ⟨-, hlength⟩ := h.elite_eq
  have hrange := h.range
  have hcount : (e.offspringCount : Int) = l.populationSize - l.eliteCount := by
    unfold offspringCount
    rw [h.limits, hlength]
    omega
  have hnew : bred.length = e.offspringCount ∧ ∀ x ∈ bred, x.Scored evaluator := by
    rcases offspring_ok hbred with ⟨hnone, rfl⟩ | ⟨q, _, drawn, _, hcomplete, hdrawn, hscored⟩
    · simp [hnone]
    · obtain rfl := Option.some.inj (h.equipped.symm.trans (evaluator_of_complete hcomplete))
      obtain ⟨hsame, hall⟩ := scored_of_scoreInOrder hscored
      have hdrawn := (Draws.yields_drawMany (P := fun _ => True) (fun _ _ _ _ => trivial) _ _ _ _
        hdrawn).1
      exact ⟨hsame.trans hdrawn, hall⟩
  refine ⟨⟨h.equipped, h.limits, h.range, ?_, ?_⟩, rfl, bred, rfl⟩
  · show ((e.elite ++ bred).length : Int) = l.populationSize
    rw [List.length_append, hnew.1]
    omega
  · intro x hx
    rcases List.mem_append.mp hx with hx | hx
    · rw [h.elite_eq.1] at hx
      exact h.scored x ((sortByFitness_perm _ _).mem_iff.mp (List.mem_of_mem_take hx))
    · exact hnew.2 x hx

/-! ## 3. From generation to generation -/

/-- **Every generation of a run is sound**, whatever came of the steps that led to it. -/
theorem sound_of_reached (h : Reached e₀ e) :
    ∃ evaluator, e₀.parts.evaluator = some evaluator ∧ Sound evaluator e₀.limits e := by
  induction h with
  | start hstart => exact sound_of_start hstart
  | restart _ hstart ih =>
    obtain ⟨evaluator, hevaluator, hsound⟩ := ih
    obtain ⟨evaluator', hevaluator', hsound'⟩ := sound_of_start hstart
    obtain rfl := Option.some.inj (hsound.equipped.symm.trans hevaluator')
    exact ⟨evaluator, hevaluator, hsound.limits ▸ hsound'⟩
  | @step υ before s t _ ih =>
    obtain ⟨evaluator, hevaluator, hsound⟩ := ih
    refine ⟨evaluator, hevaluator, ?_⟩
    rcases step_cases s before t with
      ⟨next, stop, listeners, hadvance, hstep⟩ | ⟨failure, source, hstep⟩
    · exact hstep ▸ (hsound.advance hadvance).1.aside (Aside.told next stop listeners)
    · exact hstep ▸ hsound.aside (Aside.source _ source)
  | aside _ haside ih =>
    obtain ⟨evaluator, hevaluator, hsound⟩ := ih
    exact ⟨evaluator, hevaluator, hsound.aside haside⟩

/-- **The best candidate of a run is scored**: it keeps the score of its tree, whatever came of the
steps after the generation that it comes from. -/
theorem scored_best_of_reached (h : Reached e₀ e) (hevaluator : e₀.parts.evaluator = some evaluator) :
    ∀ x, e.best = some x → x.Scored evaluator := by
  have hsound : ∀ {e : Evolution σ}, Reached e₀ e → Sound evaluator e₀.limits e := by
    intro e he
    obtain ⟨evaluator', hevaluator', hsound⟩ := sound_of_reached he
    obtain rfl := Option.some.inj (hevaluator.symm.trans hevaluator')
    exact hsound
  -- A start forgets the best before, so only its population counts.
  have hstarted : ∀ {e e' : Evolution σ}, e.start = (.ok (), e') → Sound evaluator e₀.limits e' →
      ∀ x, e'.best = some x → x.Scored evaluator := by
    intro e e' hstart hsound'
    obtain ⟨_, _, _, source', p, -, -, -, rfl⟩ := start_ok hstart
    exact best_of_noteBest (e := { e.restart.withSource (some source') with population := p })
      hsound'.scored nofun
  induction h with
  | start hstart => exact hstarted hstart (hsound (.start hstart))
  | restart hreached hstart _ => exact hstarted hstart (hsound (.restart hreached hstart))
  | @step υ before s t hreached ih =>
    rcases step_cases s before t with
      ⟨next, stop, listeners, hadvance, hstep⟩ | ⟨failure, source, hstep⟩
    · have hscored := ((hsound hreached).advance hadvance).1.scored
      rw [hstep]
      obtain ⟨bred, source, -, rfl⟩ := advance_ok hadvance
      exact best_of_noteBest (e := { before.withSource source with population := before.elite ++ bred })
        hscored ih
    · rw [hstep]
      exact ih
  | aside _ haside ih =>
    obtain ⟨phase, stop, listeners, source, rfl⟩ := haside
    exact ih

/-- **Generations of a run, and how one follows another.**  After a start and any steps, there are
as many candidates as asked for, and the fitness of each is the score of its tree.  A further step
either leaves the generation as it is, and fails, or puts a new one in its place.  The new one
begins with the elite: the front of the one stable descending order by keys, of the length asked
for, with no one left out who is better than anyone in it.  With a member in the elite, every
candidate of the old generation is matched by one of the new. -/
theorem generations_of_reached (h : Reached e₀ e) :
    ∃ evaluator, e₀.parts.evaluator = some evaluator ∧
      (e.population.length : Int) = e₀.limits.populationSize ∧
      (∀ x ∈ e.population, x.Scored evaluator) ∧
      ∀ {υ : Type} (s : Surroundings υ) (t : υ),
        ((e.step s t).1 ≠ .ok () ∧ (e.step s t).2.1.generation = e.generation ∧
          (e.step s t).2.1.population = e.population) ∨
        ((e.step s t).2.1.generation = e.generation + 1 ∧
          ∃ sorted elite bred, Ranked e.population sorted ∧
            elite = sorted.take e₀.limits.eliteCount.toNat ∧
            (elite.length : Int) = e₀.limits.eliteCount ∧
            (e.step s t).2.1.population = elite ++ bred ∧
            (∀ x ∈ elite, ∀ y ∈ sorted.drop e₀.limits.eliteCount.toNat,
              fitnessKey y.fitness ≤ fitnessKey x.fitness) ∧
            (1 ≤ e₀.limits.eliteCount → ∀ y ∈ e.population,
              ∃ x ∈ (e.step s t).2.1.population,
                fitnessKey y.fitness ≤ fitnessKey x.fitness)) := by
  obtain ⟨evaluator, hevaluator, hsound⟩ := sound_of_reached h
  refine ⟨evaluator, hevaluator, hsound.size, hsound.scored, fun s t => ?_⟩
  rcases step_cases s e t with
    ⟨next, stop, listeners, hadvance, hstep⟩ | ⟨failure, source, hstep⟩
  · right
    obtain ⟨-, hgeneration, bred, hpopulation⟩ := hsound.advance hadvance
    obtain ⟨helite, hlength⟩ := hsound.elite_eq
    have hranked := ranked_sort e.population
    rw [hstep]
    refine ⟨hgeneration, _, e.elite, bred, hranked, helite, hlength, hpopulation, ?_, ?_⟩
    · intro x hx y hy
      exact hranked.front _ (helite ▸ hx) hy
    · intro hone y hy
      obtain ⟨x, hx, hle⟩ := hranked.matched (n := e₀.limits.eliteCount.toNat) (by omega) hy
      refine ⟨x, ?_, hle⟩
      show x ∈ next.population
      rw [hpopulation, helite]
      exact List.mem_append_left bred hx
  · left
    rw [hstep]
    exact ⟨by simp, rfl, rfl⟩

/-- Two candidates, of whom the better one is carried over. -/
theorem generations_of_small_elite : ∃ e₀ e e' : Evolution Steady,
    (Configuration.small.set .eliteCount (.int 1)).evolutionWith .small none (.ok ⟨⟩) = .ok e₀ ∧
      e₀.start = (.ok (), e) ∧ e.step .silent () = (.ok (), e', ()) ∧
      (e.population.length : Int) = 2 ∧
      ∃ sorted bred, Ranked e.population sorted ∧ e'.population = sorted.take 1 ++ bred ∧
        ∀ y ∈ e.population, ∃ x ∈ e'.population, fitnessKey y.fitness ≤ fitnessKey x.fitness := by
  have hruns : (((Configuration.small.set .eliteCount (.int 1)).evolutionWith .small none
      (.ok (⟨⟩ : Steady))).toOption.any fun e₀ =>
        e₀.start.1.toBool && (e₀.start.2.offspring 1).1.toBool &&
          e₀.start.2.listeners.isEmpty && e₀.limits.populationSize = 2 &&
          e₀.limits.eliteCount = 1) = true := by decide +kernel
  cases hmade : (Configuration.small.set .eliteCount (.int 1)).evolutionWith .small none
      (.ok (⟨⟩ : Steady)) with
  | error failure => simp [hmade, Except.toOption] at hruns
  | ok e₀ =>
    simp only [hmade, Except.toOption, Option.any_some, Bool.and_eq_true, decide_eq_true_eq,
      List.isEmpty_iff] at hruns
    obtain ⟨⟨⟨⟨hstarts, hbreeds⟩, hnobody⟩, htwo⟩, hone⟩ := hruns
    have hstart : e₀.start = (.ok (), e₀.start.2) :=
      Prod.ext (Except.eq_ok_of_toBool hstarts) rfl
    obtain ⟨evaluator, -, hsound⟩ := sound_of_start hstart
    have hcount : e₀.start.2.offspringCount = 1 := by
      rw [offspringCount, hsound.limits, hsound.elite_eq.2, hone, htwo]
      rfl
    obtain ⟨bred, hbred⟩ := Except.ok_of_toBool hbreeds
    have hoffspring : e₀.start.2.offspring e₀.start.2.offspringCount =
        (.ok bred, (e₀.start.2.offspring 1).2) := by
      rw [hcount]
      exact Prod.ext hbred rfl
    have hstep := step_of_advance .silent () (advance_of_offspring hoffspring) hnobody
    obtain ⟨_, -, hsize, -, hnext⟩ := generations_of_reached (.start hstart)
    obtain ⟨hfailed, -⟩ | ⟨-, sorted, _, bred, hranked, rfl, -, hpopulation, -, hmatched⟩ :=
      hnext .silent ()
    · exact absurd (congrArg Prod.fst hstep) hfailed
    · rw [hstep, hone] at hpopulation hmatched
      exact ⟨e₀, _, _, rfl, hstart, hstep, hsize.trans htwo, sorted, bred, hranked,
        hpopulation, hmatched (by decide)⟩

end Evolution
end FormulaEvolution
