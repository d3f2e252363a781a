/-
# What a described evolution is made of

The way back from an evolution to the configuration and the dataset that it was made from.  If a
configuration describes an evolution at all, the dataset has rows and inputs, no input has the name
of a symbol that is switched on, and the grammar is exactly that of the inputs and these symbols
(`grammar_spec`).

A run of a described evolution that returns has a best candidate: a tree over the grammar, with the
score that the configured evaluator gives it (`best_of_run`).  With no generations to go a run does
return, whoever listens (`run_of_no_generations`).
-/
import FormulaEvolution.Proofs.Configuration.Runs

namespace FormulaEvolution
namespace Configuration

variable {c : Configuration} {d : Dataset} {g : Grammar} {columns : List String}

/-! ## 1. Parts -/

/-- Inputs that are named like a symbol are refused, all of them together. -/
theorem grammar_clashes (hsets : c.symbolSets ≠ []) (hcolumns : columns ≠ []) {name : String}
    (hname : name ∈ columns)
    (htaken : name ∈ Grammar.takenNames c.functions (c.isOn .constants)) :
    ∃ clashes, c.grammar columns = .error (.shape (.clashes clashes)) := by
  have hnonempty : ¬c.symbolSets.isEmpty = true := by simpa using hsets
  have hfunctions : ¬c.functions.isEmpty = true := by simpa using functions_ne_nil hsets
  have hmember : name ∈ columns.filter
      (Grammar.takenNames c.functions (c.isOn .constants)).contains :=
    List.mem_filter.mpr ⟨hname, by simpa using htaken⟩
  obtain ⟨first, rest, hclashes⟩ := List.exists_cons_of_ne_nil (List.ne_nil_of_mem hmember)
  refine ⟨first :: rest, ?_⟩
  rw [grammar, if_neg hnonempty]
  show Grammar.forRegression columns c.functions (c.isOn .constants) = _
  simp only [Grammar.forRegression, if_neg hcolumns, if_neg hfunctions, hclashes, bind, Except.bind]
  rfl

/-- **A grammar is that of its inputs and of the symbols that are switched on**, and no input is named
like one of them. -/
theorem grammar_spec (h : c.grammar columns = .ok g) (hdistinct : columns.Nodup) :
    columns ≠ [] ∧ (∀ name ∈ columns, name ∉ Grammar.takenNames c.functions (c.isOn .constants)) ∧
      g.entries = Grammar.regressionEntries columns c.functions (c.isOn .constants) := by
  have hsets : c.symbolSets ≠ [] := by
    intro hnone
    rw [grammar, hnone] at h
    cases h
  have hcolumns : columns ≠ [] := by
    rintro rfl
    rw [grammar] at h
    split at h <;> cases h
  have hapart : ∀ name ∈ columns,
      name ∉ Grammar.takenNames c.functions (c.isOn .constants) := by
    intro name hname htaken
    obtain ⟨clashes, hclashes⟩ := grammar_clashes hsets hcolumns hname htaken
    cases h.symm.trans hclashes
  obtain ⟨g', hg', hentries⟩ := grammar_ok hsets hcolumns hdistinct hapart
  obtain rfl := Except.ok.inj (h.symm.trans hg')
  exact ⟨hcolumns, hapart, hentries⟩

/-- Every configured goal is one that predictions are judged by. -/
theorem judges_of_goal {goal : Goal} (h : c.goal = .ok goal) : goal.JudgesPredictions := by
  unfold Configuration.goal at h
  split at h
  · obtain rfl := Except.ok.inj h
    trivial
  · split at h
    · obtain ⟨pressure, -, h⟩ := Except.bind_ok h
      obtain rfl := Except.ok.inj h
      trivial
    · obtain rfl := Except.ok.inj h
      trivial

/-- An evaluator over a dataset: the data, the configured goal, and no leniency. -/
structure Judges (c : Configuration) (d : Dataset) (e : Evaluator) : Prop where
  rows : d.rows ≠ []
  goal : c.goal = .ok e.goal
  strict : e.settings.lenient = false
  same : e.names = d.names ∧ e.rows = d.rows ∧ e.targets = d.targets

theorem judges_of_evaluator {e : Evaluator} (h : c.evaluator d = .ok e) : c.Judges d e := by
  unfold evaluator at h
  obtain ⟨goal, hgoal, h⟩ := Except.bind_ok h
  obtain ⟨settings, hsettings, h⟩ := Except.bind_ok h
  obtain ⟨threshold, -, hsettings⟩ := Except.bind_ok hsettings
  obtain rfl := Except.ok.inj hsettings
  unfold Evaluator.ofDataset at h
  split at h
  · cases h
  · next hrows =>
    obtain rfl := Except.ok.inj h
    exact ⟨hrows, hgoal, rfl, rfl, rfl, rfl⟩

/-! ## 2. The evolution -/

/-- The bounds of trees are whole numbers. -/
theorem bounds_of_limits_ok {l : Limits} (h : c.limits = .ok l) :
    ∃ maxLength maxDepth, c.whole .maxTreeLength = .ok maxLength ∧
      c.whole .maxTreeDepth = .ok maxDepth := by
  unfold limits at h
  obtain ⟨_, -, h⟩ := Except.bind_ok h
  obtain ⟨_, -, h⟩ := Except.bind_ok h
  obtain ⟨maxLength, hlength, h⟩ := Except.bind_ok h
  obtain ⟨maxDepth, hdepth, -⟩ := Except.bind_ok h
  exact ⟨maxLength, maxDepth, hlength, hdepth⟩

/-- What an evolution is made of: a grammar over the inputs, an evaluator over the data, and equipment
for some budget. -/
structure Makes (c : Configuration) (d : Dataset) (g : Grammar) (evaluator : Evaluator)
    (e : Evolution Twister) : Prop where
  checked : c.check = .ok ()
  vocabulary : c.grammar d.names = .ok g
  judge : c.evaluator d = .ok evaluator
  scores : e.parts.evaluator = some evaluator
  equipped : ∃ b : Budget, e.Equipped b g

/-- **A described evolution is made of a grammar and an evaluator over its dataset.** -/
theorem makes_of_evolution {e : Evolution Twister} (h : c.evolution d = .ok e) :
    ∃ g evaluator, c.Makes d g evaluator e := by
  have hwith : c.evolutionWith d none c.source = .ok e := h
  unfold evolution evolutionWith at h
  obtain ⟨_, hcheck, h⟩ := Except.bind_ok h
  obtain ⟨parts, hparts, h⟩ := Except.bind_ok h
  obtain ⟨limits, hlimits, h⟩ := Except.bind_ok h
  obtain rfl := Except.ok.inj h
  unfold partsWith at hparts
  obtain ⟨g, hgrammar, hparts⟩ := Except.bind_ok hparts
  obtain ⟨_, -, hparts⟩ := Except.bind_ok hparts
  obtain ⟨_, -, hparts⟩ := Except.bind_ok hparts
  obtain ⟨_, -, hparts⟩ := Except.bind_ok hparts
  obtain ⟨_, -, hparts⟩ := Except.bind_ok hparts
  obtain ⟨_, -, hparts⟩ := Except.bind_ok hparts
  obtain ⟨evaluator, hevaluator, hparts⟩ := Except.bind_ok hparts
  obtain rfl := Except.ok.inj hparts
  obtain ⟨hcolumns, -, hentries⟩ := grammar_spec hgrammar d.distinct
  obtain ⟨maxLength, maxDepth, hlength, hdepth⟩ := bounds_of_limits_ok hlimits
  exact ⟨g, evaluator, hcheck, hgrammar, hevaluator, rfl, _, equipped_of_evolutionWith hwith hgrammar
    (Grammar.terminals_of_regression hcolumns hentries) hlength hdepth⟩

/-! ## 3. Runs -/

/-- A candidate over a grammar, with the score of its tree. -/
structure Found (g : Grammar) (evaluator : Evaluator) (x : Individual) (t : Tree) (fitness : Float) :
    Prop where
  tree : x.tree = some t
  offers : t.Everywhere g.Offers
  scored : evaluator.fitness (some t) = .ok fitness
  fitness : x.fitness = some fitness

/-- **A run that returns has a best candidate**, over the configured grammar and scored by the
configured evaluator, whoever listens. -/
theorem best_of_run {τ : Type} {e e' : Evolution Twister} {evaluator : Evaluator}
    (h : c.Makes d g evaluator e) {s : Surroundings τ} {t t' : τ}
    (hrun : e.run s t = (.ok (), e', t')) :
    ∃ x tree fitness, e'.best = some x ∧ Found g evaluator x tree fitness := by
  obtain ⟨b, hequipped⟩ := h.equipped
  obtain ⟨e₁, hstart⟩ : ∃ e₁, e.start = (.ok (), e₁) := by
    unfold Evolution.run at hrun
    split at hrun
    · cases hrun
    · next e₁ hstart => exact ⟨e₁, hstart⟩
  have hreached := Evolution.reached_of_run s t hstart
  rw [hrun] at hreached
  obtain ⟨x, hx, tree, htree, -, hoffers⟩ := (Evolution.keeps_of_reached hequipped hreached).best
  obtain ⟨fitness, hscored, hfitness⟩ := Evolution.scored_best_of_reached hreached h.scores x hx
  exact ⟨x, tree, fitness, hx, htree, hoffers, htree ▸ hscored, hfitness⟩

/-- Limits have the number of generations that is configured. -/
theorem generations_of_limits_ok {l : Limits} (h : c.limits = .ok l) :
    c.whole .maxGenerations = .ok l.maxGenerations := by
  unfold limits at h
  obtain ⟨_, -, h⟩ := Except.bind_ok h
  obtain ⟨n, hgenerations, h⟩ := Except.bind_ok h
  obtain ⟨_, -, h⟩ := Except.bind_ok h
  obtain ⟨_, -, h⟩ := Except.bind_ok h
  obtain ⟨_, -, h⟩ := Except.bind_ok h
  obtain ⟨_, -, h⟩ := Except.bind_ok h
  obtain ⟨_, -, h⟩ := Except.bind_ok h
  obtain ⟨_, -, h⟩ := Except.bind_ok h
  obtain rfl := Except.ok.inj h
  exact hgenerations

/-- **An evolution of no generations over a dataset that suits its configuration runs to its end**,
and leaves its surroundings as they are. -/
theorem run_of_no_generations {n : Int} (h : c.Suits d) (hinputs : d.names ≠ [])
    (hgenerations : c.whole .maxGenerations = .ok n) (hnone : n ≤ 0) :
    ∃ e, c.evolution d = .ok e ∧ ∀ {τ : Type} (s : Surroundings τ) (names : List String) (t : τ),
      (∀ t, (s.signal t).2 = t) →
        ∃ e', ({ e with listeners := names }).run s t = (.ok (), e', t) := by
  obtain ⟨source, hsource⟩ := source_of_typed h.typed
  obtain ⟨e, q, l, b, g, hmade, hhas, hserves⟩ := h.evolutionWith hinputs source
  obtain ⟨e₁, hstart, -⟩ := Evolution.start_of_serves hhas hserves
  have hlimits : c.limits = .ok e.limits := by
    unfold evolutionWith at hmade
    obtain ⟨_, -, hmade⟩ := Except.bind_ok hmade
    obtain ⟨_, -, hmade⟩ := Except.bind_ok hmade
    obtain ⟨_, hlimits, hmade⟩ := Except.bind_ok hmade
    obtain rfl := Except.ok.inj hmade
    exact hlimits
  have hgoes : e.limits.maxGenerations ≤ 0 := by
    rwa [Except.ok.inj ((generations_of_limits_ok hlimits).symm.trans hgenerations)]
  exact ⟨e, by rw [evolution, hsource, hmade], fun s names t hsignal =>
    Evolution.run_of_no_generations names t hstart hgoes hsignal⟩

end Configuration
end FormulaEvolution
