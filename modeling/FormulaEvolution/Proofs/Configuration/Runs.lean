/-
# Configured runs

A configuration that passes its check, over a dataset with rows and inputs that suits it, describes
an evolution that is ready to run, and every run of it goes to its end (`run_of_suits`).

What had to be shown is in other modules: the parts and limits that a checked configuration makes
(`Configuration.Checked`), the grammar it makes (`Grammar.forRegression_ok`), that scoring does not
fail on trees over inputs that are there (`Tree.Scorable`), and that nothing on the way fails with
parts that fit together (`Equipment.Serves`).  What remains is that the configured parts do fit
together.

The check does not look at the dataset, and a dataset without inputs passes wherever it is made;
the grammar is what refuses it (`inputs_of_evolution`).
-/
import FormulaEvolution.Proofs.Configuration.Check
import FormulaEvolution.Proofs.Evolution.Completion
import FormulaEvolution.Proofs.Symbol.Regression

namespace FormulaEvolution

/-! ## 1. Trees over the inputs -/

/-- A node that looks up a name is a variable of that name. -/
theorem Tree.variable_of_input {u : Tree} {name : String} (h : u.input? = some name) :
    ∃ s, u = .variable s ∧ s.name = name := by
  match u, h with
  | .variable s, h => exact ⟨s, rfl, Option.some.inj h⟩

/-- **Trees of a grammar for regression can be scored over its inputs.** -/
theorem Tree.scorable_of_regression {columns : List String} {functions : List Entry}
    {allowConstants : Bool} {g : Grammar} {t : Tree}
    (hentries : g.entries = Grammar.regressionEntries columns functions allowConstants)
    (hfunctions : ∀ s ∈ functions.map (·.symbol), s ∈ standardSymbols)
    (hplain : ∀ name ∈ columns, Text.Quoted.Plain name.toList) (ht : t.Everywhere g.Offers) :
    t.Scorable columns where
  ready u hu := by
    have hoffers := ht u hu
    refine ⟨u.sorted_iff.mpr hoffers.kind, hoffers.accepts, ?_⟩
    rcases Grammar.symbol_of_regression hentries (Grammar.mem_symbols_of_enabled hoffers.enabled)
      with hs | ⟨name, hname, hs⟩ | hs
    · exact .standard (hfunctions _ hs)
    · exact hs ▸ .input name (hplain name hname)
    · exact hs ▸ .fixed _ _
  inputs u hu name hinput := by
    have hoffers := ht u hu
    obtain ⟨s, rfl, rfl⟩ := variable_of_input hinput
    have hkind : s.kind = some .variable := hoffers.kind
    -- Only the symbols of inputs are those of variables, so the name is one of the inputs.
    rcases Grammar.symbol_of_regression hentries (Grammar.mem_symbols_of_enabled hoffers.enabled)
      with hs | ⟨name, hname, hs⟩ | hs
    · rw [(Symbol.standard_cases (hfunctions s hs)).1] at hkind
      cases hkind
    · obtain rfl : s = Symbol.forVariable name := hs
      exact hname
    · obtain rfl : s = Symbol.forConstant Symbol.constantName defaultRange := hs
      cases hkind

namespace Configuration

variable {σ : Type} {c : Configuration} {d : Dataset} {g : Grammar}

/-! ## 2. The grammar -/

/-- The functions of the symbol sets that are switched on. -/
def functions (c : Configuration) : List Entry :=
  (c.symbolSets.flatMap SymbolSet.symbols).map fun s => { symbol := s }

theorem symbols_of_functions (c : Configuration) :
    c.functions.map (·.symbol) = c.symbolSets.flatMap SymbolSet.symbols := by
  rw [functions, List.map_map]
  exact List.map_id _

/-- The functions are standard symbols, in their order. -/
theorem functions_sublist (c : Configuration) :
    (c.functions.map (·.symbol)).Sublist standardSymbols := by
  have hsets : c.symbolSets.Sublist (toggles.map (·.2)) := List.filter_sublist.map _
  rw [symbols_of_functions]
  exact symbols_sublist hsets

/-- The names of functions and constants are distinct. -/
theorem takenNames_nodup (c : Configuration) (allowConstants : Bool) :
    (Grammar.takenNames c.functions allowConstants).Nodup := by
  have hnames : (c.functions.map (·.symbol.name)).Sublist (standardSymbols.map (·.name)) := by
    simpa [List.map_map, Function.comp_def] using (functions_sublist c).map (·.name)
  refine List.nodup_append.mpr ⟨standardNames_distinct.1.sublist hnames, ?_, ?_⟩
  · cases allowConstants <;> simp
  · rintro name hname _ hconstant rfl
    cases allowConstants with
    | false => simp at hconstant
    | true =>
      obtain rfl := List.mem_singleton.mp hconstant
      exact standardNames_distinct.2 (hnames.mem hname)

theorem functions_ne_nil (h : c.symbolSets ≠ []) : c.functions ≠ [] := by
  obtain ⟨set, hset⟩ := List.exists_mem_of_ne_nil _ h
  have hsymbols : set.symbols ≠ [] := by cases set <;> exact List.cons_ne_nil _ _
  obtain ⟨s, hs⟩ := List.exists_mem_of_ne_nil _ hsymbols
  refine List.ne_nil_of_mem (a := { symbol := s }) (List.mem_map_of_mem ?_)
  exact List.mem_flatMap.mpr ⟨set, hset, hs⟩

/-- **Inputs that no symbol of the configuration is named like make a grammar.** -/
theorem grammar_ok {columns : List String} (hsets : c.symbolSets ≠ []) (hcolumns : columns ≠ [])
    (hdistinct : columns.Nodup)
    (hapart : ∀ name ∈ columns, name ∉ Grammar.takenNames c.functions (c.isOn .constants)) :
    ∃ g, c.grammar columns = .ok g ∧
      g.entries = Grammar.regressionEntries columns c.functions (c.isOn .constants) := by
  obtain ⟨g, hg, hentries⟩ := Grammar.forRegression_ok hcolumns (functions_ne_nil hsets) hdistinct
    (takenNames_nodup c _) hapart
  refine ⟨g, ?_, hentries⟩
  have hnonempty : ¬c.symbolSets.isEmpty = true := by simpa using hsets
  rw [Configuration.grammar, if_neg hnonempty]
  exact hg

/-! ## 3. Configurations and datasets that suit each other -/

/-- A configuration with values of the right types that passes its check, and a dataset with a row
whose inputs have names without braces that no symbol of the configuration has. -/
structure Suits (c : Configuration) (d : Dataset) : Prop where
  typed : c.Typed
  checked : c.check = .ok ()
  rows : d.rows ≠ []
  plain : ∀ name ∈ d.names, Text.Quoted.Plain name.toList
  apart : ∀ name ∈ d.names, name ∉ Grammar.takenNames c.functions (c.isOn .constants)

theorem Suits.grammar (h : c.Suits d) (hinputs : d.names ≠ []) :
    ∃ g, c.grammar d.names = .ok g ∧
      g.entries = Grammar.regressionEntries d.names c.functions (c.isOn .constants) :=
  grammar_ok (checked_of_check h.checked).sets hinputs d.distinct h.apart

/-- **An evolution is described, and it has parts and limits that serve.** -/
theorem Suits.evolutionWith (h : c.Suits d) (hinputs : d.names ≠ []) (source : σ) :
    ∃ e q l b g, c.evolutionWith d none (.ok source) = .ok e ∧ e.Has q l ∧
      q.Serves l b g := by
  have hchecked := checked_of_check h.checked
  obtain ⟨g, hg, hentries⟩ := h.grammar hinputs
  obtain ⟨creator, hcreator⟩ := creator_of_checked hchecked
  obtain ⟨crossover, hcrossover⟩ := crossover_of_checked h.typed hchecked
  obtain ⟨mutator, hmutator⟩ := mutator_of_checked h.typed hchecked
  obtain ⟨size, hsize⟩ := h.typed.wholes .tournamentSize (by decide)
  obtain ⟨evaluator, hevaluator, hnames, hstrict, hjudges⟩ := evaluator_of_typed h.typed h.rows
  obtain ⟨l, hlimits, hcheck⟩ := limits_of_checked h.typed hchecked
  obtain ⟨maxLength, hlength⟩ := h.typed.wholes .maxTreeLength (by decide)
  obtain ⟨maxDepth, hdepth⟩ := h.typed.wholes .maxTreeDepth (by decide)
  obtain ⟨hmaxLength, hmaxDepth⟩ := bounds_of_limits hlimits hlength hdepth
  let q : Equipment := ⟨g, creator, crossover, mutator, size, evaluator⟩
  refine ⟨{ parts := q.parts (some source), limits := l }, q, l, ⟨maxLength, maxDepth⟩, g, ?_,
    ⟨⟨source, rfl⟩, rfl, rfl⟩, ?_⟩
  · simp only [Configuration.evolutionWith, partsWith, grammarOver, h.checked, hg, hcreator,
      hcrossover, hmutator, hsize, hevaluator, hlimits, bind, Except.bind, pure, Except.pure]
    rfl
  · exact {
      made := madeFor_of_parts (budget_eq hlength hdepth)
        (Grammar.terminals_of_regression hinputs hentries) hcreator hcrossover hmutator
      checked := hcheck
      maxLength := hmaxLength
      maxDepth := hmaxDepth
      scores := fun t ht => by
        have hscorable := Tree.scorable_of_regression hentries
          (fun s hs => (functions_sublist c).mem hs) h.plain ht.2
        exact Evaluator.fitness_of_scorable hstrict hjudges (hnames ▸ hscorable) }

/-! ## 4. Runs -/

/-- Every seed makes a random source. -/
theorem source_of_typed (h : c.Typed) : ∃ source, c.source = .ok source := by
  obtain ⟨seed, hseed⟩ := h.wholes .randomSeed (by decide)
  refine ⟨.ofSeed seed, ?_⟩
  rw [Configuration.source, hseed]
  rfl

/-- **A run that a configuration describes goes to its end.**  For every configuration with values of
the right types that passes its check, whatever its seed, and every dataset that suits it and has an
input: the evolution is ready, and in any surroundings a run of it returns, with a tree as its
best. -/
theorem run_of_suits (h : c.Suits d) (hinputs : d.names ≠ []) :
    ∃ e, c.evolution d = .ok e ∧ (∃ parts, e.ready = .ok parts) ∧
      ∀ {υ : Type} (s : Surroundings υ) (t : υ), ∃ e' t' x tree,
        e.run s t = (.ok (), e', t') ∧ e'.best = some x ∧ x.tree = some tree := by
  obtain ⟨source, hsource⟩ := source_of_typed h.typed
  obtain ⟨e, q, l, b, g, hmade, hhas, hserves⟩ := h.evolutionWith hinputs source
  refine ⟨e, by rw [evolution, hsource, hmade], ?_, fun s t => ?_⟩
  · obtain ⟨source, hready⟩ := hhas.ready hserves
    exact ⟨_, hready⟩
  · obtain ⟨e', t', hrun, hlive⟩ := Evolution.run_of_serves hhas hserves s t
    obtain ⟨x, hx, tree, htree, -⟩ := hlive.keeps.best
    exact ⟨e', t', x, tree, hrun, hx, htree⟩

theorem typed_small : Configuration.small.Typed := typed_of_holdsTypes rfl

theorem check_small : Configuration.small.check = .ok () :=
  Except.eq_ok_of_toBool (by decide +kernel)

theorem suits_small : Configuration.small.Suits .small where
  typed := typed_small
  checked := check_small
  rows := List.cons_ne_nil _ _
  plain := by
    intro name hname
    obtain rfl := List.mem_singleton.mp hname
    exact ⟨by decide, by decide⟩
  apart := by decide +kernel

/-- The small configuration runs over the small dataset. -/
theorem run_small : ∃ e, Configuration.small.evolution .small = .ok e ∧
    ∃ e' x tree, e.run .silent () = (.ok (), e', ()) ∧ e'.best = some x ∧ x.tree = some tree := by
  obtain ⟨e, hmade, -, hruns⟩ := run_of_suits suits_small (List.cons_ne_nil _ _)
  obtain ⟨e', t', x, tree, hrun, hbest⟩ := hruns .silent ()
  exact ⟨e, hmade, e', x, tree, hrun, hbest⟩

/-- **Without inputs nothing is described**, whatever the configuration. -/
theorem inputs_of_evolution {e : Evolution Twister} (h : c.evolution d = .ok e) : d.names ≠ [] := by
  intro hnone
  unfold evolution Configuration.evolutionWith at h
  obtain ⟨-, -, h⟩ := Except.bind_ok h
  obtain ⟨parts, hparts, -⟩ := Except.bind_ok h
  obtain ⟨g, hgrammar, -⟩ := Except.bind_ok hparts
  simp only [grammarOver, grammar, hnone, Grammar.forRegression] at hgrammar
  split at hgrammar
  · cases hgrammar
  · cases hgrammar

end Configuration

/-- A dataset with a row, and nothing in it but the target. -/
def Dataset.inputless : Dataset where
  names := []
  rows := [[]]
  targets := [1.0]
  width := by simp
  count := rfl
  distinct := List.nodup_nil

/-- The small configuration suits a dataset without inputs, and describes nothing over it. -/
theorem Configuration.suits_inputless : Configuration.small.Suits .inputless ∧
    ∀ e, Configuration.small.evolution .inputless ≠ .ok e := by
  refine ⟨⟨typed_small, check_small, List.cons_ne_nil _ _, ?_, ?_⟩, fun e h => ?_⟩
  · exact fun name h => absurd h List.not_mem_nil
  · exact fun name h => absurd h List.not_mem_nil
  · exact inputs_of_evolution h rfl

end FormulaEvolution
