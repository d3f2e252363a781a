/-
# What the check of a configuration is good for

A configuration that passes its check, and holds values of the right types, makes all parts of a run
and limits that pass theirs.  The two checks look at the same settings in two ways: the first one
compares what a value stands for, whatever it is, the second one compares whole numbers and doubles
(`limits_of_checked`).

* `Configuration.Typed`: the values have the types that the settings ask for.
* `Configuration.Checked`: what the check has found out, one field for each demand.
-/
import FormulaEvolution.Configuration.Assembly
import FormulaEvolution.Proofs.Evolution.Lineage
import FormulaEvolution.Proofs.Fitness.Totality
import FormulaEvolution.Proofs.Number.Comparison

namespace FormulaEvolution

/-! ## 1. Types -/

/-- The settings that hold whole numbers. -/
def Setting.wholes : List Setting :=
  [.populationSize, .maxGenerations, .randomSeed, .maxTreeDepth, .maxTreeLength, .tournamentSize,
   .eliteCount, .parallelThreshold]

/-- The settings that hold doubles. -/
def Setting.numbers : List Setting :=
  [.crossoverProbability, .mutationProbability, .parsimonyPressure]

namespace Configuration

variable {c : Configuration} {s : Setting}

/-- The values have the types that the settings ask for: whole numbers, doubles or what can stand
for them, and a target that may be missing.  Switches may hold anything, and words are held by every
configuration that passes the check. -/
structure Typed (c : Configuration) : Prop where
  wholes : ∀ s ∈ Setting.wholes, ∃ n, c.whole s = .ok n
  numbers : ∀ s ∈ Setting.numbers, ∃ x, c.number s = .ok x
  target : c.value .targetFitness = .null ∨ ∃ x, c.number .targetFitness = .ok x

/-- Whether whole numbers and doubles are there as such, and the target is one or missing. -/
def holdsTypes (c : Configuration) : Bool :=
  (Setting.wholes.all fun s => c.value s matches .int _) &&
    (Setting.numbers.all fun s => c.value s matches .float _) &&
    (c.value .targetFitness matches .null | .float _)

/-- Whole numbers and doubles as such have the types that the settings ask for. -/
theorem typed_of_holdsTypes (h : c.holdsTypes = true) : c.Typed := by
  simp only [holdsTypes, Bool.and_eq_true, List.all_eq_true] at h
  obtain ⟨⟨hwholes, hnumbers⟩, htarget⟩ := h
  refine ⟨fun s hs => ?_, fun s hs => ?_, ?_⟩
  · have hvalue := hwholes s hs
    split at hvalue
    · next n heq => exact ⟨n, by rw [whole, heq]⟩
    · cases hvalue
  · have hvalue := hnumbers s hs
    split at hvalue
    · next x heq => exact ⟨x, by rw [number, heq]; rfl⟩
    · cases hvalue
  · split at htarget
    · next heq => exact .inl heq
    · next x heq => exact .inr ⟨x, by rw [number, heq]; rfl⟩
    · cases htarget

/-! ## 2. What the check finds out -/

/-- A configuration that passes the check, one field for each demand that matters to a run. -/
structure Checked (c : Configuration) : Prop where
  population : c.isFrom .populationSize 1 = .ok true
  generations : c.isFrom .maxGenerations 0 = .ok true
  depth : c.isFrom .maxTreeDepth 1 = .ok true
  length : c.isFrom .maxTreeLength 1 = .ok true
  crossover : c.isChance .crossoverProbability = .ok true
  mutation : c.isChance .mutationProbability = .ok true
  elite : c.eliteFits = .ok true
  sets : c.symbolSets ≠ []
  choices : ∀ choice ∈ choices, c.isOneOf choice.1 choice.2 = true

theorem demand_ok_iff {holds : Bool} {fault : ConfigurationFault} :
    demand holds fault = .ok () ↔ holds = true := by
  cases holds with
  | true => simp [demand]
  | false => simp [demand]

theorem demand_of_ok {result : Except Failure Bool} {fault : ConfigurationFault}
    {next : Unit → Except Failure Unit}
    (h : (result >>= fun holds => demand holds fault >>= next) = .ok ()) :
    result = .ok true ∧ next () = .ok () := by
  obtain ⟨holds, hresult, h⟩ := Except.bind_ok h
  obtain ⟨hdemand, hnext⟩ := Except.then_ok_iff.mp h
  rw [hresult, demand_ok_iff.mp hdemand]
  exact ⟨rfl, hnext⟩

theorem checkChance_ok (h : c.checkChance s = .ok ()) : c.isChance s = .ok true := by
  obtain ⟨holds, hresult, h⟩ := Except.bind_ok h
  rw [hresult, demand_ok_iff.mp h]

theorem checkChoices_ok : ∀ {choices : List (Setting × List String)},
    c.checkChoices choices = .ok () → ∀ choice ∈ choices, c.isOneOf choice.1 choice.2 = true
  | [], _, choice, hchoice => absurd hchoice List.not_mem_nil
  | (s, words) :: rest, h, choice, hchoice => by
    rw [checkChoices] at h
    obtain ⟨hdemand, hrest⟩ := Except.then_ok_iff.mp h
    rcases List.mem_cons.mp hchoice with rfl | hchoice
    · exact demand_ok_iff.mp hdemand
    · exact checkChoices_ok hrest choice hchoice

/-- **What the check of a configuration has found out once it is passed.** -/
theorem checked_of_check (h : c.check = .ok ()) : c.Checked := by
  unfold check at h
  obtain ⟨hpopulation, h⟩ := demand_of_ok h
  obtain ⟨hgenerations, h⟩ := demand_of_ok h
  obtain ⟨hdepth, h⟩ := demand_of_ok h
  obtain ⟨hlength, h⟩ := demand_of_ok h
  obtain ⟨hcrossover, h⟩ := Except.then_ok_iff.mp h
  obtain ⟨hmutation, h⟩ := Except.then_ok_iff.mp h
  obtain ⟨-, h⟩ := demand_of_ok h
  obtain ⟨helite, h⟩ := demand_of_ok h
  obtain ⟨-, h⟩ := demand_of_ok h
  obtain ⟨-, h⟩ := demand_of_ok h
  obtain ⟨hsets, h⟩ := Except.then_ok_iff.mp h
  obtain ⟨hchoices, -⟩ := Except.then_ok_iff.mp h
  exact {
    population := hpopulation
    generations := hgenerations
    depth := hdepth
    length := hlength
    crossover := checkChance_ok hcrossover
    mutation := checkChance_ok hmutation
    elite := helite
    sets := by simpa using demand_ok_iff.mp hsets
    choices := checkChoices_ok hchoices }

/-! ## 3. Limits -/

/-- What a whole number is compared by is the whole number. -/
theorem quantity_of_whole {n : Int} (h : c.whole s = .ok n) :
    c.quantity s = .ok (.ofWhole n) := by
  unfold whole at h
  unfold quantity
  split at h
  · next m hm =>
    cases h
    rw [hm]
    rfl
  · next b hb =>
    cases h
    rw [hb]
    rfl
  · cases h

theorem le_of_isFrom {n bound : Int} (hn : c.whole s = .ok n)
    (h : c.isFrom s bound = .ok true) : bound ≤ n := by
  unfold isFrom at h
  rw [quantity_of_whole hn] at h
  have hless : (!(Number.Shape.ofWhole n).less (.ofWhole bound)) = true := Except.ok.inj h
  simpa using hless

theorem ofWhole?_of_toFloat {n : Int} {x : Float} (h : Json.toFloat (.int n) = .ok x) :
    Number.ofWhole? n = some x := by
  unfold Json.toFloat at h
  dsimp only at h
  generalize Number.ofWhole? n = rounded at h ⊢
  cases rounded with
  | none => simp at h
  | some y => simpa using h

/-- **A chance is within zero and one as a double too.** -/
theorem unit_of_isChance {x : Float} (hx : c.number s = .ok x) (h : c.isChance s = .ok true) :
    0.0 ≤ x ∧ x ≤ 1.0 := by
  unfold isChance at h
  obtain ⟨shape, hshape, h⟩ := Except.bind_ok h
  have hbounds : ((Number.Shape.ofWhole 0).atMost shape && shape.atMost (.ofWhole 1)) = true :=
    Except.ok.inj h
  rw [Bool.and_eq_true] at hbounds
  unfold quantity at hshape
  unfold number at hx
  cases hvalue : c.value s with
  | float y =>
    rw [hvalue] at hx hshape
    cases hx
    cases hshape
    exact Number.within_unit hbounds.1 hbounds.2
  | int n =>
    rw [hvalue] at hx hshape
    cases hshape
    simp only [Number.Shape.atMost_ofWhole, decide_eq_true_eq] at hbounds
    have hrounded : (Number.ofWhole? n).all (fun y => 0.0 ≤ y && y ≤ 1.0) = true := by
      obtain rfl | rfl : n = 0 ∨ n = 1 := by omega
      · decide +kernel
      · decide +kernel
    rw [ofWhole?_of_toFloat hx] at hrounded
    simpa using hrounded
  | bool b =>
    rw [hvalue] at hx
    cases hx
    cases b with
    | true => decide +kernel
    | false => decide +kernel
  | null => rw [hvalue] at hshape; cases hshape
  | string text => rw [hvalue] at hshape; cases hshape
  | list items => rw [hvalue] at hshape; cases hshape
  | object fields => rw [hvalue] at hshape; cases hshape

/-- **Limits of a checked configuration pass the check of limits.** -/
theorem limits_of_checked (ht : c.Typed) (h : c.Checked) :
    ∃ l, c.limits = .ok l ∧ l.check = .ok () := by
  obtain ⟨size, hsize⟩ := ht.wholes .populationSize (by decide)
  obtain ⟨generations, hgenerations⟩ := ht.wholes .maxGenerations (by decide)
  obtain ⟨length, hlength⟩ := ht.wholes .maxTreeLength (by decide)
  obtain ⟨depth, hdepth⟩ := ht.wholes .maxTreeDepth (by decide)
  obtain ⟨elite, helite⟩ := ht.wholes .eliteCount (by decide)
  obtain ⟨crossover, hcrossover⟩ := ht.numbers .crossoverProbability (by decide)
  obtain ⟨mutation, hmutation⟩ := ht.numbers .mutationProbability (by decide)
  obtain ⟨target, htarget⟩ : ∃ target, c.target = .ok target := by
    unfold target
    rcases ht.target with hnull | ⟨x, hx⟩
    · exact ⟨none, by rw [hnull]⟩
    · rw [hx]
      split
      · exact ⟨none, rfl⟩
      · exact ⟨some x, rfl⟩
  have hfits : 0 ≤ elite ∧ elite ≤ size := by
    have hbounds := h.elite
    unfold eliteFits at hbounds
    rw [quantity_of_whole helite, quantity_of_whole hsize] at hbounds
    have hbounds : ((Number.Shape.ofWhole 0).atMost (.ofWhole elite) &&
        (Number.Shape.ofWhole elite).atMost (.ofWhole size)) = true := Except.ok.inj hbounds
    simpa using hbounds
  refine ⟨⟨size, generations, length, depth, crossover, mutation, elite, target, false⟩, ?_, ?_⟩
  · simp only [limits, hsize, hgenerations, hlength, hdepth, hcrossover, hmutation, helite,
      htarget, bind, Except.bind, pure, Except.pure]
  · exact Limits.check_ok_iff.mpr ⟨le_of_isFrom hsize h.population,
      le_of_isFrom hgenerations h.generations,
      ⟨le_of_isFrom hlength h.length, le_of_isFrom hdepth h.depth⟩,
      unit_of_isChance hcrossover h.crossover, unit_of_isChance hmutation h.mutation, hfits⟩

/-! ## 4. Parts -/

/-- A setting that is one of some words holds one of them. -/
theorem word_of_isOneOf {words : List String} (h : c.isOneOf s words = true) :
    ∃ word ∈ words, c.value s = .string word := by
  obtain ⟨word, hword, hvalue⟩ := List.any_eq_true.mp h
  refine ⟨word, hword, ?_⟩
  unfold isWord at hvalue
  split at hvalue
  · next text htext =>
    obtain rfl : text = word := by simpa using hvalue
    exact htext
  · cases hvalue

/-- A word that a table has is looked up in it. -/
theorem lookUp_of_word {α : Type} {table : String → Option α} {word : String}
    (hword : c.value s = .string word) (htable : (table word).isSome) :
    ∃ a, c.lookUp s table = .ok a := by
  obtain ⟨a, ha⟩ := Option.isSome_iff_exists.mp htable
  exact ⟨a, by simp only [lookUp, hword, ha]⟩

theorem creator_of_checked (h : c.Checked) : ∃ creator, c.creator = .ok creator := by
  obtain ⟨word, hmem, hword⟩ := word_of_isOneOf
    (h.choices (.creationMethod, Creator.names) (by simp [choices]))
  have hall : ∀ word ∈ Creator.names, (Creator.ofName? word).isSome := by decide
  exact lookUp_of_word hword (hall word hmem)

theorem budget_of_typed (ht : c.Typed) : ∃ budget, c.budget = .ok budget := by
  obtain ⟨length, hlength⟩ := ht.wholes .maxTreeLength (by decide)
  obtain ⟨depth, hdepth⟩ := ht.wholes .maxTreeDepth (by decide)
  exact ⟨⟨length, depth⟩, budget_eq hlength hdepth⟩

theorem crossover_of_checked (ht : c.Typed) (h : c.Checked) :
    ∃ crossover, c.crossover = .ok crossover := by
  obtain ⟨word, hmem, hword⟩ := word_of_isOneOf
    (h.choices (.crossoverType, Crossover.Kind.all.map Crossover.Kind.name) (by simp [choices]))
  have hall : ∀ word ∈ Crossover.Kind.all.map Crossover.Kind.name,
      (Crossover.Kind.ofName? word).isSome := by decide
  obtain ⟨kind, hkind⟩ := lookUp_of_word hword (hall word hmem)
  obtain ⟨budget, hbudget⟩ := budget_of_typed ht
  refine ⟨.ofKind kind budget, ?_⟩
  simp only [crossover, crossoverKind, hkind, hbudget]
  rfl

theorem mutatorOf_of_checked (ht : c.Typed) (h : c.Checked) (kind : Mutator.Kind) :
    ∃ m, c.mutatorOf kind = .ok m := by
  obtain ⟨creator, hcreator⟩ := creator_of_checked h
  obtain ⟨budget, hbudget⟩ := budget_of_typed ht
  unfold mutatorOf
  split
  · exact ⟨.ofKind kind budget creator, by rw [hcreator, hbudget]; rfl⟩
  · exact ⟨_, rfl⟩

theorem mutator_of_checked (ht : c.Typed) (h : c.Checked) : ∃ m, c.mutator = .ok m := by
  obtain ⟨word, hmem, hword⟩ := word_of_isOneOf
    (h.choices (.mutationType, Mutator.Kind.all.map Mutator.Kind.name ++ [combinedName])
      (by simp [choices]))
  have hcombined : c.isWord .mutationType combinedName = decide (word = combinedName) := by
    simp only [isWord, hword]
  rcases List.mem_append.mp hmem with hkind | hlast
  · have hother : ∀ word ∈ Mutator.Kind.all.map Mutator.Kind.name,
        (Mutator.Kind.ofName? word).isSome ∧ word ≠ combinedName := by decide
    obtain ⟨kind, hlooked⟩ := lookUp_of_word hword (hother word hkind).1
    obtain ⟨m, hm⟩ := mutatorOf_of_checked ht h kind
    have hfalse : c.isWord .mutationType combinedName = false := by
      simpa [hcombined] using (hother word hkind).2
    refine ⟨m, ?_⟩
    simp [mutator, mutatorKinds, hfalse, hlooked, hm, bind, Except.bind, pure, Except.pure]
  · have htrue : c.isWord .mutationType combinedName = true := by
      simpa [hcombined] using hlast
    have hall : ∀ kind ∈ Mutator.Kind.all, ∃ m, c.mutatorOf kind = .ok m :=
      fun kind _ => mutatorOf_of_checked ht h kind
    obtain ⟨members, hmembers, hlength⟩ := Except.mapM_ok hall
    have hne : members.isEmpty = false := by
      cases members with
      | nil => cases hlength
      | cons m ms => rfl
    refine ⟨.combined members, ?_⟩
    simp [mutator, mutatorKinds, htrue, hmembers, Mutator.combine, hne, bind, Except.bind]

theorem threshold_of_typed (ht : c.Typed) : ∃ n, c.threshold = .ok n := by
  obtain ⟨n, hn⟩ := ht.wholes .parallelThreshold (by decide)
  unfold threshold
  cases hvalue : c.value .parallelThreshold with
  | int m => exact ⟨_, by rw [hn]; rfl⟩
  | bool b => exact ⟨_, by rw [hn]; rfl⟩
  | float x => rw [whole, hvalue] at hn; cases hn
  | string text => rw [whole, hvalue] at hn; cases hn
  | null => rw [whole, hvalue] at hn; cases hn
  | list items => rw [whole, hvalue] at hn; cases hn
  | object fields => rw [whole, hvalue] at hn; cases hn

/-- What predictions are judged by is settled by the problem and the fitness. -/
theorem goal_of_typed (ht : c.Typed) : ∃ goal, c.goal = .ok goal ∧ goal.JudgesPredictions := by
  unfold goal
  split
  · exact ⟨.regression, rfl, trivial⟩
  · split
    · obtain ⟨x, hx⟩ := ht.numbers .parsimonyPressure (by decide)
      exact ⟨.smooth x, by rw [hx]; rfl, trivial⟩
    · exact ⟨.classification, rfl, trivial⟩

/-- The evaluator over a dataset with a row is strict and judges predictions. -/
theorem evaluator_of_typed (ht : c.Typed) {d : Dataset} (hrows : d.rows ≠ []) :
    ∃ e, c.evaluator d = .ok e ∧ e.names = d.names ∧ e.settings.lenient = false ∧
      e.goal.JudgesPredictions := by
  obtain ⟨goal, hgoal, hjudges⟩ := goal_of_typed ht
  obtain ⟨threshold, hthreshold⟩ := threshold_of_typed ht
  simp only [evaluator, evaluatorSettings, Evaluator.ofDataset, hgoal, hthreshold, hrows, bind,
    Except.bind, pure, Except.pure]
  exact ⟨_, rfl, rfl, rfl, hjudges⟩

end Configuration
end FormulaEvolution
