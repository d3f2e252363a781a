/-
# The best candidate of a run

The best candidate so far is the first among the best of all populations of the run, in the order
of the generations and within a generation in the order of the population
(`Evolution.best_of_lineage`).  What is unscored or no number counts as worst, so a run without
numbers keeps the first candidate of all.

`FirstBest xs x` says that `x` stands in `xs` after candidates that it beats and before candidates
that it matches or beats.  Three facts carry it through a run:

* sorting a population puts its first best candidate in front, because equals keep their order
  (`firstBest_of_sort`);
* the first best of two parts is that of the second only if it beats that of the first
  (`FirstBest.append`);
* noting the best is this comparison, with the best so far on the left (`Evolution.noteBest_spec`).
-/
import FormulaEvolution.Proofs.Evolution.Lineage

namespace FormulaEvolution

/-! ## 1. The first among the best -/

/-- The first among the best of some candidates. -/
def FirstBest (xs : List Individual) (x : Individual) : Prop :=
  ∃ before after, xs = before ++ x :: after ∧
    (∀ y ∈ before, beats x.fitness y.fitness = true) ∧
    ∀ y ∈ after, matchesOrBeats x.fitness y.fitness = true

theorem matchesOrBeats_of_beats {a b : Option Float} (h : beats a b = true) :
    matchesOrBeats a b = true := by
  simp only [beats, matchesOrBeats, decide_eq_true_eq] at *
  omega

theorem beats_of_beats_of_matches {a b c : Option Float} (hab : beats a b = true)
    (hbc : matchesOrBeats b c = true) : beats a c = true := by
  simp only [beats, matchesOrBeats, decide_eq_true_eq] at *
  omega

theorem matchesOrBeats_of_not_beats {a b : Option Float} (h : ¬beats a b = true) :
    matchesOrBeats b a = true := by
  simp only [beats, matchesOrBeats, decide_eq_true_eq] at *
  omega

variable {xs ys : List Individual} {x y : Individual}

theorem FirstBest.mem (h : FirstBest xs x) : x ∈ xs := by
  obtain ⟨before, after, rfl, _, _⟩ := h
  exact List.mem_append_right _ List.mem_cons_self

/-- Nothing is better than the first among the best. -/
theorem FirstBest.matches_all (h : FirstBest xs x) (hy : y ∈ xs) :
    matchesOrBeats x.fitness y.fitness = true := by
  obtain ⟨before, after, rfl, hbefore, hafter⟩ := h
  rcases List.mem_append.mp hy with hy | hy
  · exact matchesOrBeats_of_beats (hbefore y hy)
  · rcases List.mem_cons.mp hy with rfl | hy
    · exact matchesOrBeats_refl _
    · exact hafter y hy

/-- **The first best of two parts.**  It is taken from the second part only if it beats the one of
the first. -/
theorem FirstBest.append (hx : FirstBest xs x) (hy : FirstBest ys y) :
    FirstBest (xs ++ ys) (if beats y.fitness x.fitness then y else x) := by
  by_cases hbeats : beats y.fitness x.fitness = true
  · rw [if_pos hbeats]
    obtain ⟨before, after, rfl, hbefore, hafter⟩ := hy
    refine ⟨xs ++ before, after, by rw [List.append_assoc], fun z hz => ?_, hafter⟩
    rcases List.mem_append.mp hz with hz | hz
    · exact beats_of_beats_of_matches hbeats (hx.matches_all hz)
    · exact hbefore z hz
  · rw [if_neg hbeats]
    have hxy := matchesOrBeats_of_not_beats hbeats
    obtain ⟨before, after, rfl, hbefore, hafter⟩ := hx
    refine ⟨before, after ++ ys, by simp, hbefore, fun z hz => ?_⟩
    rcases List.mem_append.mp hz with hz | hz
    · exact hafter z hz
    · exact matchesOrBeats_trans hxy (hy.matches_all hz)

/-- **The head of a population sorted by fitness is the first among its best.**  The induction is
over the population: its first member either goes to the front, and then matches or beats all
others, or stays behind members that beat it. -/
theorem firstBest_of_sort : ∀ {xs : List Individual} {x : Individual} {rest : List Individual},
    sortByFitness (·.fitness) xs = x :: rest → FirstBest xs x
  | [], x, rest, h => by simp [sortByFitness] at h
  | a :: xs, x, rest, h => by
    obtain ⟨l₁, l₂, hcons, hsorted, hbetter⟩ := @List.mergeSort_cons Individual
      (fun b c => matchesOrBeats b.fitness c.fitness) (fun _ _ _ hab hbc => matchesOrBeats_trans hab hbc)
      (fun b c => matchesOrBeats_total b.fitness c.fitness) a xs
    have hpairwise := sortByFitness_pairwise (·.fitness) (a :: xs)
    rw [h] at hpairwise
    have hall : ∀ y ∈ rest, matchesOrBeats x.fitness y.fitness = true :=
      (List.pairwise_cons.mp hpairwise).1
    rw [sortByFitness] at h
    rw [h] at hcons
    cases l₁ with
    | nil =>
      obtain ⟨rfl, rfl⟩ := List.cons.inj hcons
      refine ⟨[], xs, rfl, by simp, fun y hy => hall y ?_⟩
      rw [← List.nil_append rest, ← hsorted]
      exact List.mem_mergeSort.mpr hy
    | cons b l₁ =>
      obtain ⟨rfl, -⟩ := List.cons.inj hcons
      obtain ⟨before, after, rfl, hbefore, hafter⟩ := firstBest_of_sort hsorted
      refine ⟨a :: before, after, rfl, fun y hy => ?_, hafter⟩
      rcases List.mem_cons.mp hy with rfl | hy
      · exact beats_iff_not.mpr (by simpa using hbetter x List.mem_cons_self)
      · exact hbefore y hy

/-! ## 2. Noting the best -/

namespace Evolution

variable {σ : Type} {e e' e₀ : Evolution σ}

/-- **Noting the best compares the first best of the population with the best so far.**  An empty
population leaves the best as it is. -/
theorem noteBest_spec (e : Evolution σ) :
    (e.population = [] ∧ e.noteBest.best = e.best) ∨
    ∃ y, FirstBest e.population y ∧ e.noteBest.best =
      some (match e.best with
        | none => y
        | some x => if beats y.fitness x.fitness then y else x) := by
  have hfront : e.population.best 1 = (sortByFitness (·.fitness) e.population).take 1 := rfl
  cases hsorted : sortByFitness (·.fitness) e.population with
  | nil =>
    left
    have hnil : e.population.best 1 = [] := by rw [hfront, hsorted, List.take_nil]
    refine ⟨?_, by simp only [noteBest, hnil]⟩
    have hperm := sortByFitness_perm (·.fitness) e.population
    rw [hsorted] at hperm
    exact List.nil_perm.mp hperm
  | cons y rest =>
    right
    have hcons : e.population.best 1 = [y] := by rw [hfront, hsorted]; rfl
    refine ⟨y, firstBest_of_sort hsorted, ?_⟩
    simp only [noteBest, hcons]
    cases e.best <;> rfl

/-- What holds of a population and of the best before holds of the best after. -/
theorem best_of_noteBest {P : Individual → Prop} (hpopulation : ∀ x ∈ e.population, P x)
    (hbefore : ∀ x, e.best = some x → P x) : ∀ x, e.noteBest.best = some x → P x := by
  intro x hx
  rcases noteBest_spec e with ⟨-, hsame⟩ | ⟨y, hy, hnew⟩
  · exact hbefore x (hsame.symm.trans hx)
  · obtain rfl := Option.some.inj (hnew.symm.trans hx)
    split
    · exact hpopulation y hy.mem
    · next before hbest =>
      split
      · exact hpopulation y hy.mem
      · exact hbefore before hbest

/-- The best after a generation matches or beats the best before it. -/
theorem noteBest_matches (e : Evolution σ) {x : Individual} (hx : e.best = some x) :
    matchesOrBeats e.noteBest.bestFitness x.fitness = true := by
  rcases noteBest_spec e with ⟨_, hbest⟩ | ⟨y, _, hbest⟩
  · rw [bestFitness, hbest, hx]
    exact matchesOrBeats_refl _
  · rw [bestFitness, hbest, hx]
    by_cases hbeats : beats y.fitness x.fitness = true
    · simpa [hbeats] using matchesOrBeats_of_beats hbeats
    · simpa [hbeats] using matchesOrBeats_refl x.fitness

/-! ## 3. Along a run -/

/-- What is known about the best of an evolution with these populations behind it. -/
structure Tracks (ps : List Population) (e : Evolution σ) : Prop where
  generation : ps.length = e.generation + 1
  history_length : e.history.length = e.generation + 1
  history_sorted : e.history.Pairwise fun earlier later => matchesOrBeats later earlier = true
  history_last : e.history.getLast? = some e.bestFitness
  best : ∃ x, e.best = some x ∧ FirstBest ps.flatten x

/-- Every entry of the history is at most as good as the last one. -/
theorem Tracks.matches_history {ps : List Population} (h : Tracks ps e) {fitness : Option Float}
    (hf : fitness ∈ e.history) : matchesOrBeats e.bestFitness fitness = true := by
  obtain ⟨front, hfront⟩ := List.getLast?_eq_some_iff.mp h.history_last
  have hsorted := h.history_sorted
  rw [hfront] at hf hsorted
  rcases List.mem_append.mp hf with hf | hf
  · exact (List.pairwise_append.mp hsorted).2.2 fitness hf _ (by simp)
  · obtain rfl := List.mem_singleton.mp hf
    exact matchesOrBeats_refl _

/-- The first generation is the whole run so far. -/
theorem tracks_founded {source : σ} {p : Population} (hp : p ≠ []) :
    Tracks [p] (e.founded source p) := by
  let before : Evolution σ := { e.restart.withSource (some source) with population := p }
  have hbest : ∃ x, before.noteBest.best = some x ∧ FirstBest [p].flatten x := by
    rcases noteBest_spec before with ⟨hnil, _⟩ | ⟨y, hy, hbest⟩
    · exact absurd hnil hp
    · exact ⟨y, hbest, by simpa [before] using hy⟩
  exact ⟨rfl, rfl, List.pairwise_singleton _ _, rfl, hbest⟩

/-- **A generation that is put in place extends the record.** -/
theorem tracks_install {ps : List Population} {p : Population} (h : Tracks ps e) :
    Tracks (ps ++ [p]) (e.install p) := by
  let before : Evolution σ := { e with population := p }
  obtain ⟨x, hx, hfirst⟩ := h.best
  have hhistory : (e.install p).history = e.history ++ [(e.install p).bestFitness] := rfl
  refine ⟨?_, ?_, ?_, ?_, ?_⟩
  · rw [List.length_append, h.generation]
    rfl
  · rw [hhistory, List.length_append, h.history_length]
    rfl
  · rw [hhistory, List.pairwise_append]
    refine ⟨h.history_sorted, List.pairwise_singleton _ _, fun fitness hf last hlast => ?_⟩
    obtain rfl := List.mem_singleton.mp hlast
    have hnow : matchesOrBeats (e.install p).bestFitness x.fitness = true :=
      noteBest_matches before hx
    have hthen := h.matches_history hf
    rw [bestFitness, hx] at hthen
    exact matchesOrBeats_trans hnow hthen
  · rw [hhistory, List.getLast?_concat]
  · rw [List.flatten_append, List.flatten_singleton]
    rcases noteBest_spec before with ⟨hnil, hbest⟩ | ⟨y, hy, hbest⟩
    · have hp : p = [] := hnil
      exact ⟨x, hbest.trans hx, by rw [hp, List.append_nil]; exact hfirst⟩
    · have hx' : before.best = some x := hx
      rw [hx'] at hbest
      exact ⟨_, hbest, hfirst.append hy⟩

theorem Tracks.aside {ps : List Population} (h : Tracks ps e) (haside : Aside e e') :
    Tracks ps e' := by
  obtain ⟨phase, stop, listeners, source, rfl⟩ := haside
  exact ⟨h.generation, h.history_length, h.history_sorted, h.history_last, h.best⟩

/-- **The best candidate of a run is the first among the best of all its populations, and the
history records its fitness after every generation without ever getting worse.** -/
theorem best_of_lineage {ps : List Population} (h : Lineage e₀ ps e) : Tracks ps e := by
  induction h with
  | founded source hp => exact tracks_founded hp
  | installed source p _ ih => exact tracks_install (ih.aside (Aside.source _ source))
  | aside _ haside ih => exact ih.aside haside

/-- After the first step of the small run, two populations are on record. -/
theorem best_of_small_run : ∃ e₀ e e' : Evolution Steady, e₀.start = (.ok (), e) ∧
    e.step .silent () = (.ok (), e', ()) ∧ Tracks [e.population, e'.population] e' := by
  obtain ⟨e₀, e, e', _, hstart, hstep⟩ := small_runs
  exact ⟨e₀, e, e', hstart, hstep, best_of_lineage ((Lineage.start hstart).step hstep)⟩

end Evolution
end FormulaEvolution
