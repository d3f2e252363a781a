/-
# Evaluating what has been evolved

The command that evaluates switches all symbols on, and looks at the table before it looks at the
tree.  After an evolution that ended well it succeeds, for the same table and problem, exactly if no
column is named like a standard symbol or like the constants: switched off or not, such a symbol
clashes with the column (`Evaluate.ends_well_iff`).

If it succeeds after an evolution with the standard fitness and no rows held out, it shows the
expression and the fitness that the evolution has shown.
-/
import FormulaEvolution.Command.Evaluate
import FormulaEvolution.Proofs.Command.Evolve
import FormulaEvolution.Proofs.Json.Lines
import FormulaEvolution.Proofs.Tree.Document

namespace FormulaEvolution
namespace Evaluate

/-! ## 1. The configuration with everything switched on -/

variable {problem : String}

/-- The names of all standard symbols and of the constants. -/
def reservedNames : List String := standardSymbols.map (·.name) ++ [Symbol.constantName]

theorem symbolSets_configuration : (configuration problem).symbolSets = SymbolSet.all := rfl

theorem functions_configuration :
    (configuration problem).functions.map (·.symbol) = standardSymbols := by
  rw [Configuration.symbols_of_functions, symbolSets_configuration]
  rfl

theorem takenNames_configuration :
    Grammar.takenNames (configuration problem).functions ((configuration problem).isOn .constants) =
      reservedNames := by
  have hnames : (configuration problem).functions.map (·.symbol.name) =
      standardSymbols.map (·.name) := by
    rw [← @functions_configuration problem, List.map_map]
    rfl
  rw [Grammar.takenNames, hnames]
  rfl

theorem typed_configuration : (configuration problem).Typed :=
  Configuration.typed_of_holdsTypes rfl

/-- A configuration with the standard fitness has the goal that its problem alone stands for. -/
theorem goal_configuration {c : Configuration} (hproblem : c.value .problemType = .string problem)
    (hfitness : c.value .fitnessType = .string "standard") :
    (configuration problem).goal = c.goal := by
  have hword : ∀ c : Configuration, c.value .problemType = .string problem →
      c.value .fitnessType = .string "standard" →
      c.goal = if problem = "regression" then .ok .regression else .ok .classification := by
    intro c hproblem hfitness
    have hsmooth : c.isWord .fitnessType "smooth" = false := by
      simp only [Configuration.isWord, hfitness]
      decide
    have hregression : c.isWord .problemType "regression" = decide (problem = "regression") := by
      simp only [Configuration.isWord, hproblem]
    simp only [Configuration.goal, hsmooth, hregression, decide_eq_true_eq]
    rfl
  rw [hword c hproblem hfitness, hword (configuration problem) rfl rfl]

/-! ## 2. Trees of other configurations -/

/-- **A tree over any choice of symbols can be read with all of them**, over the same inputs. -/
theorem legible_of_offers {c : Configuration} {columns : List String} {g g' : Grammar} {t : Tree}
    (hg : g.entries = Grammar.regressionEntries columns c.functions (c.isOn .constants))
    (hg' : g'.entries = Grammar.regressionEntries columns (configuration problem).functions true)
    (ht : t.Everywhere g.Offers) : ∀ u ∈ t.preorder, u.Legible g' := by
  have hentry : ∀ s : Symbol, s ∈ standardSymbols ∨ (∃ name ∈ columns, s = .forVariable name) ∨
      s = .forConstant Symbol.constantName defaultRange → s ∈ g'.symbols := by
    have hsymbols : g'.symbols = standardSymbols ++ columns.map Symbol.forVariable ++
        [.forConstant Symbol.constantName defaultRange] := by
      rw [Grammar.symbols, hg', Grammar.regressionEntries, if_pos rfl, List.map_append,
        List.map_append, functions_configuration, List.map_map]
      rfl
    rw [hsymbols]
    rintro s (hs | ⟨name, hname, rfl⟩ | rfl)
    · exact List.mem_append_left _ (List.mem_append_left _ hs)
    · exact List.mem_append_left _ (List.mem_append_right _ (List.mem_map_of_mem hname))
    · exact List.mem_append_right _ (List.mem_singleton_self _)
  intro u hu
  have hoffers := ht u hu
  refine ⟨u.sorted_iff.mpr hoffers.kind, hoffers.accepts, hentry _ ?_⟩
  rcases Grammar.symbol_of_regression hg (Grammar.mem_symbols_of_enabled hoffers.enabled) with
    hs | hs
  · exact .inl ((Configuration.functions_sublist c).mem hs)
  · exact .inr hs

/-! ## 3. The command -/

variable {q : Request} {w : Workspace} {d : Dataset}

/-- What is printed about a tree, a line each. -/
def verdict (problem : String) (t : Option Tree) (fitness : Float) : List String :=
  ["Expression: " ++ treeText t,
   "Length: " ++ toString (treeLength t) ++ ", Depth: " ++ toString (treeDepth t),
   "Fitness (" ++ problem ++ "): " ++ Number.briefText fitness]

/-- A command whose steps succeed prints its verdict and leaves everything as it is. -/
theorem work_ok {g : Grammar} {saved : String} {t : Option Tree} {e : Evaluator} {fitness : Float}
    (htable : w.files.table q.table = .ok d)
    (hgrammar : (configuration q.problem).grammar d.names = .ok g)
    (hsaved : w.files.readText q.tree = .ok saved) (htree : treeOfJson g saved = .ok t)
    (hevaluator : (configuration q.problem).evaluator d = .ok e)
    (hfitness : e.fitness t = .ok fitness) :
    (work q).perform { workspace := w } =
      (.ok (), { workspace := w, printed := Work.printed "" (verdict q.problem t fitness) }) := by
  obtain ⟨text, htext, hdata⟩ := Except.bind_ok htable
  unfold work
  rw [Work.bind_of_ok _ (Work.read_ok htext), Work.bind_of_ok _ (Work.ofExcept_ok hdata),
    Work.bind_of_ok _ (Work.ofExcept_ok hgrammar), Work.bind_of_ok _ (Work.read_ok hsaved),
    Work.bind_of_ok _ (Work.ofExcept_ok htree), Work.bind_of_ok _ (Work.ofExcept_ok hevaluator),
    Work.bind_of_ok _ (Work.ofExcept_ok hfitness), Work.bind_of_ok _ (Work.perform_say _),
    Work.bind_of_ok _ (Work.perform_say _), Work.perform_say]
  simp only [Work.printed, verdict, List.foldl_cons, List.foldl_nil]

/-- **A column with the name of any symbol is refused**, before the tree is looked at. -/
theorem conclude_of_clash {name : String} (htable : w.files.table q.table = .ok d)
    (hname : name ∈ d.names) (hreserved : name ∈ reservedNames) :
    ((work q).conclude w).1.code = 1 := by
  obtain ⟨text, htext, hdata⟩ := Except.bind_ok htable
  obtain ⟨clashes, hclashes⟩ := Configuration.grammar_clashes (c := configuration q.problem)
    (by rw [symbolSets_configuration]; decide) (List.ne_nil_of_mem hname) hname
    (by rwa [takenNames_configuration])
  have hrefused : (work q).perform { workspace := w } =
      (.error (.shape (.clashes clashes)), { workspace := w }) := by
    unfold work
    rw [Work.bind_of_ok _ (Work.read_ok htext), Work.bind_of_ok _ (Work.ofExcept_ok hdata)]
    exact Work.bind_error _ (by rw [Work.perform_ofExcept, hclashes])
  rw [Work.conclude_of_reported rfl hrefused]

/-! ## 4. After an evolution -/

section Evolved

variable {r : Evolve.Request} {before after : Desk} {c : Configuration} {whole train : Dataset}
  {e₀ e : Evolution Twister}

/-- **The tree that an evolution has saved is scored over the same table**, if no column is named like
a symbol.  The score is the one it had in the evolution if all rows were learnt from and predictions
were judged in the same way. -/
theorem work_of_story (problem : String)
    (hstory : Evolve.Story r before after c whole train e₀ e)
    (hafter : after.workspace.files.table r.table = .ok whole)
    (hplain : ∀ name ∈ whole.names, Text.Quoted.Plain name.toList)
    (hapart : ∀ name ∈ whole.names, name ∉ reservedNames) :
    ∃ t fitness, Evolve.bestTree e = some t ∧
      (work ⟨Evolve.treePath r, r.table, problem⟩).perform { workspace := after.workspace } =
        (.ok (), { workspace := after.workspace,
                   printed := Work.printed "" (verdict problem (some t) fitness) }) ∧
      (train = whole → (configuration problem).goal = c.goal → e.bestFitness = some fitness) := by
  obtain ⟨g, evaluator, x, t, fitness, hvocabulary, hjudge, hbest, hfound⟩ :=
    Evolve.best_of_story hstory
  obtain ⟨_, hlearns⟩ := hstory.learns
  have htree : Evolve.bestTree e = some t := by rw [Evolve.bestTree, hbest]; exact hfound.tree
  -- The tree is over the inputs of the whole table, and so is the grammar that it is read with.
  obtain ⟨hcolumns, -, hentries⟩ := Configuration.grammar_spec hvocabulary whole.distinct
  obtain ⟨g', hg', hentries'⟩ := Configuration.grammar_ok (c := configuration problem)
    (by rw [symbolSets_configuration]; decide) hcolumns whole.distinct
    (by rwa [takenNames_configuration])
  have hlegible := legible_of_offers hentries hentries' hfound.offers
  have hscorable : t.Scorable whole.names := Tree.scorable_of_regression hentries
    (fun s hs => (Configuration.functions_sublist c).mem hs) hplain hfound.offers
  have hjudges := Configuration.judges_of_evaluator hjudge
  obtain ⟨evaluator', hevaluator', hnames', hstrict', hgoal'⟩ :=
    Configuration.evaluator_of_typed (@typed_configuration problem)
      (hlearns.rows hjudges.rows)
  obtain ⟨fitness', hfitness'⟩ :=
    Evaluator.fitness_of_scorable hstrict' hgoal' (hnames' ▸ hscorable)
  have hsaved : after.workspace.files.readText (Evolve.treePath r) = .ok (treeJson (some t)) := by
    rw [Files.readText, hstory.saved, htree]
    exact congrArg Except.ok (Json.normalizeLines_write _)
  refine ⟨t, fitness', htree, work_ok hafter hg' hsaved (treeOfJson_of_legible hlegible) hevaluator'
    hfitness', ?_⟩
  rintro rfl hgoal
  have hjudges' := Configuration.judges_of_evaluator hevaluator'
  have halike : Evaluator.Alike evaluator evaluator' := {
    names := hnames'.trans hjudges.same.1.symm
    rows := hjudges'.same.2.1.trans hjudges.same.2.1.symm
    targets := hjudges'.same.2.2.trans hjudges.same.2.2.symm
    goal := Except.ok.inj ((hjudges'.goal.symm.trans hgoal).trans hjudges.goal) }
  have hsame := Evaluator.fitness_eq_of_alike halike hjudges.strict hstrict'
    (Configuration.judges_of_goal hjudges.goal) (hjudges.same.1 ▸ hscorable)
  rw [hfitness', hfound.scored] at hsame
  obtain rfl := Except.ok.inj hsame
  rw [Evolution.bestFitness, hbest]
  exact hfound.fitness

end Evolved

/-- **A tree that has been evolved can be evaluated** over the same table and for the same problem,
exactly if no column is named like a symbol, be it one that the evolution has switched on or off.
With the standard fitness, and if no rows were held out, it then has the expression and the fitness
that the evolution has shown. -/
theorem ends_well_iff {r : Evolve.Request} {w v : Workspace} {ending : Ending} {c : Configuration}
    {problem : String} {d : Dataset}
    (hevolved : (Evolve.work r).conclude w = (ending, v)) (hwell : ending.code = 0)
    (hconfigured : ((Evolve.configure r).perform { workspace := w }).1 = .ok c)
    (hproblem : c.value .problemType = .string problem)
    (hbefore : w.files.table r.table = .ok d) (hafter : v.files.table r.table = .ok d)
    (hplain : ∀ name ∈ d.names, Text.Quoted.Plain name.toList) :
    let evaluated := ((work ⟨Evolve.treePath r, r.table, problem⟩).conclude v).1
    (evaluated.code = 0 ↔ ∀ name ∈ d.names, name ∉ reservedNames) ∧
      (evaluated.code = 0 → c.value .fitnessType = .string "standard" → ¬r.testFraction > 0.0 →
        ∃ before t fitness,
          ending.printed = some (Work.printed before (Evolve.farewell r (some t) (some fitness))) ∧
          evaluated.printed = some (Work.printed "" (verdict problem (some t) fitness))) := by
  obtain ⟨after, hdone⟩ := Work.done_of_conclude (by rw [hevolved]; exact hwell)
  obtain ⟨rfl, rfl⟩ := Prod.mk.inj (hevolved.symm.trans (Work.conclude_of_done hdone))
  obtain ⟨c', whole, train, e₀, e, hstory⟩ := Evolve.story_of_done hdone
  obtain rfl := Except.ok.inj (hstory.configured.symm.trans hconfigured)
  obtain rfl := Except.ok.inj (hstory.table.symm.trans hbefore)
  have hends : ((work ⟨Evolve.treePath r, r.table, problem⟩).conclude after.workspace).1.code = 0 ↔
      ∀ name ∈ whole.names, name ∉ reservedNames := by
    constructor
    · intro hcode name hname hreserved
      have hrefused := conclude_of_clash (q := ⟨Evolve.treePath r, r.table, problem⟩) hafter hname
        hreserved
      cases hrefused.symm.trans hcode
    · intro hapart
      obtain ⟨t, fitness, -, hperformed, -⟩ :=
        work_of_story problem hstory hafter hplain hapart
      rw [Work.conclude_of_done hperformed]
  refine ⟨hends, fun hcode hstandard hall => ?_⟩
  obtain ⟨t, fitness, htree, hperformed, hsame⟩ :=
    work_of_story problem hstory hafter hplain (hends.mp hcode)
  obtain ⟨before, hprinted⟩ := hstory.told hall
  obtain ⟨_, hlearns⟩ := hstory.learns
  have hfitness := hsame (hlearns.all hall).1 (goal_configuration hproblem hstandard)
  refine ⟨before, t, fitness, ?_, ?_⟩
  · rw [hprinted, htree, hfitness]
  · rw [Work.conclude_of_done hperformed]

/-- After the small request for a table with the input `x`, its tree has the fitness that was shown. -/
theorem ends_well_after_small : ∃ printed v,
    (Evolve.work .small).conclude { files := Evolve.alone "x,y\n1,2\n2,4\n3,6\n" } =
      ({ code := 0, printed := some printed }, v) ∧
    ((work ⟨Evolve.treePath .small, "data.csv", "regression"⟩).conclude v).1.code = 0 ∧
    ∃ before t fitness,
      printed = Work.printed before (Evolve.farewell .small (some t) (some fitness)) ∧
      ((work ⟨Evolve.treePath .small, "data.csv", "regression"⟩).conclude v).1.printed =
        some (Work.printed "" (verdict "regression" (some t) fitness)) := by
  have hplain : Text.Quoted.Plain "x".toList := ⟨by decide, by decide⟩
  obtain ⟨whole, d', hwhole, hnames, hdone, hkept⟩ :=
    Evolve.done_of_alone "x,y\n1,2\n2,4\n3,6\n" "x" (by decide +kernel) hplain (by decide +kernel)
  have hconcluded := Work.conclude_of_done hdone
  obtain ⟨hiff, hshown⟩ := ends_well_iff hconcluded rfl ((Evolve.configure_small _).result rfl) rfl
    hwhole hkept (by rw [hnames]; exact List.forall_mem_singleton.mpr hplain)
  have hcode := hiff.mpr (by rw [hnames]; decide +kernel)
  have hall : ¬Evolve.Request.small.testFraction > 0.0 := by decide +kernel
  obtain ⟨before, t, fitness, hprinted, hevaluated⟩ := hshown hcode rfl hall
  exact ⟨_, _, hconcluded, hcode, before, t, fitness, Option.some.inj hprinted, hevaluated⟩

/-- **A symbol that is switched off is in the way all the same**: for a table with the input `Mean`
the small request ends well, and its tree cannot be evaluated over the same table. -/
theorem refused_after_small : ∃ printed v,
    (Evolve.work .small).conclude { files := Evolve.alone "Mean,y\n1,2\n2,4\n3,6\n" } =
      ({ code := 0, printed := some printed }, v) ∧
    v.files.table "data.csv" = (Evolve.alone "Mean,y\n1,2\n2,4\n3,6\n").table "data.csv" ∧
    ((work ⟨Evolve.treePath .small, "data.csv", "regression"⟩).conclude v).1.code = 1 := by
  obtain ⟨whole, d', hwhole, hnames, hdone, hkept⟩ :=
    Evolve.done_of_alone "Mean,y\n1,2\n2,4\n3,6\n" "Mean" (by decide +kernel)
      ⟨by decide, by decide⟩ (by decide +kernel)
  have hname : "Mean" ∈ whole.names := by rw [hnames]; exact List.mem_singleton_self _
  exact ⟨_, _, Work.conclude_of_done hdone, hkept.trans hwhole.symm,
    conclude_of_clash hkept hname (by decide +kernel)⟩

end Evaluate
end FormulaEvolution
