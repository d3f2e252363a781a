/-
# The command that evolves

Evolve an expression for the last column of a table from its other columns.  The settings are those
of a configuration file, if one is named, with those of the command line in front.

Everything is kept in one folder: the configuration as it was used, an archive of the run, and the
best tree.
-/
import FormulaEvolution.Algorithm.Run
import FormulaEvolution.Command.Arguments
import FormulaEvolution.Command.Desk
import FormulaEvolution.Configuration.Assembly
import FormulaEvolution.Dataset.Separated

namespace FormulaEvolution
namespace Evolve

/-! ## 1. Options -/

/-- What words an option takes. -/
inductive Taking where
  | whole
  | number
  | oneOf (words : List String)
  | switch

/-- An option for a setting, by its flags; the flag of a switch has a twin that switches off. -/
structure SettingOption where
  setting : Setting
  flags : List String
  taking : Taking

/-- The words that a setting may be. -/
def wordsFor (s : Setting) : List String :=
  ((Configuration.choices.find? (·.1 = s)).map (·.2)).getD []

/-- An option that takes one of the words that its setting may be. -/
def choosing (s : Setting) (flag : String) : SettingOption := ⟨s, [flag], .oneOf (wordsFor s)⟩

/-- The options for settings. -/
def settingOptions : List SettingOption :=
  [⟨.maxGenerations, ["--generations", "-g"], .whole⟩,
   ⟨.populationSize, ["--population", "-p"], .whole⟩,
   ⟨.randomSeed, ["--seed"], .whole⟩,
   ⟨.maxTreeDepth, ["--max-depth"], .whole⟩,
   ⟨.maxTreeLength, ["--max-length"], .whole⟩,
   ⟨.crossoverProbability, ["--crossover-rate"], .number⟩,
   ⟨.mutationProbability, ["--mutation-rate"], .number⟩,
   ⟨.eliteCount, ["--elite-size"], .whole⟩,
   choosing .problemType "--problem-type",
   choosing .fitnessType "--fitness-type",
   choosing .creationMethod "--creation-method",
   choosing .crossoverType "--crossover-type",
   choosing .mutationType "--mutation-type",
   ⟨.extendedMath, ["extended"], .switch⟩,
   ⟨.advancedMath, ["advanced"], .switch⟩,
   ⟨.trigonometric, ["trigonometric"], .switch⟩,
   ⟨.comparison, ["comparison"], .switch⟩,
   ⟨.bounding, ["bounding"], .switch⟩,
   ⟨.ratio, ["ratio"], .switch⟩,
   ⟨.statistics, ["statistics"], .switch⟩,
   ⟨.constants, ["constants"], .switch⟩,
   ⟨.targetFitness, ["--target-fitness"], .number⟩]

/-- The flags of an option for a setting. -/
def SettingOption.allFlags (o : SettingOption) : List Flag :=
  match o.taking with
  | .switch => o.flags.flatMap fun word =>
      [⟨"--" ++ word, o.setting.name, .stands true⟩,
       ⟨"--no-" ++ word, o.setting.name, .stands false⟩]
  | _ => o.flags.map fun text => ⟨text, o.setting.name, .takesValue⟩

/-- All flags. -/
def flags : List Flag :=
  settingOptions.flatMap SettingOption.allFlags ++
  [⟨"--config", "config", .takesValue⟩, ⟨"--test-fraction", "test-fraction", .takesValue⟩,
   ⟨"--out", "out", .takesValue⟩, ⟨"-o", "out", .takesValue⟩,
   ⟨"--save-every", "save-every", .takesValue⟩, ⟨"--verbose", "verbose", .stands true⟩,
   ⟨"-v", "verbose", .stands true⟩, ⟨"--help", "help", .stands true⟩]

/-- The value of a word for an option. -/
def Taking.value? : Taking → String → Option Json
  | .whole, text => (Number.wholeOfText? text).map .int
  | .number, text => (Number.ofText? text).map .float
  | .oneOf words, text => if text ∈ words then some (.string text) else none
  | .switch, _ => none

/-- What a line says about a setting: nothing, or a value, or something that cannot be read. -/
def SettingOption.change? (o : SettingOption) (l : Line) : Option (List (Setting × Json)) :=
  match l.options.value? o.setting.name with
  | none => some []
  | some (.switch b) => some [(o.setting, .bool b)]
  | some (.word text) => (o.taking.value? text).map fun value => [(o.setting, value)]

/-- What is asked for. -/
structure Request where
  table : String
  configFile : Option String
  changes : List (Setting × Json)
  testFraction : Float
  out : String
  saveEvery : Int
  verbose : Bool

/-- The request of a line, if it makes sense among these files. -/
def request? (l : Line) (f : Files) : Option Request := do
  let changes ← settingOptions.mapM (·.change? l)
  let testFraction ← l.valueOr "test-fraction" Number.ofText? 0.0
  let saveEvery ← l.valueOr "save-every" Number.wholeOfText? 10
  let configFile := l.word? "config"
  if (configFile.toList.all f.hasFile) then
    match l.words with
    | [table] =>
      if f.hasFile table then
        some { table, configFile, changes := changes.flatten, testFraction,
               out := (l.word? "out").getD "out/", saveEvery, verbose := l.isOn "verbose" }
      else none
    | _ => none
  else none

/-! ## 2. Listening -/

/-- What a run reports to: an archive, and the desk. -/
structure Audience where
  archive : Archive
  desk : Desk

/-- The line about a generation. -/
def progressLine (event : GenerationEvent) (maxGenerations : String) : String :=
  "Gen " ++ Report.padLeft 3 (toString event.generation) ++ "/" ++ maxGenerations ++ ": Best=" ++
    Report.number event.bestFitness ++ " Avg=" ++ Report.number event.averageFitness

/-- Whether there is a line about a generation: every tenth one and the last one have one, and all
have if that is asked for. -/
def isTold (verbose : Bool) (maxGenerations generation : Int) : Bool :=
  verbose || generation % 10 = 0 || generation = maxGenerations

/-- The listener that keeps the archive. -/
def archiver : String := "archive"

/-- The listener that prints lines. -/
def narrator : String := "progress"

/-- How the listeners of a run work. -/
def surroundings (verbose : Bool) (maxGenerations : Int) : Surroundings Audience where
  hear name event t :=
    if name = archiver then
      match t.archive.record event t.desk.workspace with
      | (.ok _, archive, workspace) => ({}, { archive, desk := { t.desk with workspace } })
      | (.error failure, archive, workspace) =>
        ({ failure := some failure }, { archive, desk := { t.desk with workspace } })
    else if isTold verbose maxGenerations event.generation then
      ({}, { t with desk :=
        ((Work.say (progressLine event (toString maxGenerations))).perform t.desk).2 })
    else ({}, t)
  signal t := (false, t)

/-! ## 3. The command -/

/-- The configuration that is asked for, checked. -/
def configure (q : Request) : Work Configuration := do
  let base ← match q.configFile with
    | some path => do
      let text ← Work.read path
      Work.ofExcept (Configuration.ofText text)
    | none => pure Configuration.usual
  let c := base.setAll q.changes
  Work.ofExcept c.check
  return c

/-- The rows to learn from and those held out. -/
def divide (q : Request) (c : Configuration) (d : Dataset) : Work (Dataset × Option Dataset) :=
  if q.testFraction > 0.0 then do
    let source ← Work.ofExcept c.source
    let (train, test) ← Work.ofExcept ((d.split (1.0 - q.testFraction)).runFrom source).1
    return (train, some test)
  else return (d, none)

/-- Run an evolution and keep its story. -/
def evolve (q : Request) (e : Evolution Twister) (archive : Archive) :
    Work (Evolution Twister × Archive) := fun desk =>
  let listening := (e.listen archiver).listen narrator
  match listening.run (surroundings q.verbose e.limits.maxGenerations) { archive, desk } with
  | (.ok (), e, t) => (.ok (e, t.archive), t.desk)
  | (.error failure, _, t) => (.error failure, t.desk)

/-- Evolve. -/
def work (q : Request) : Work Unit := do
  let c ← configure q
  let table ← Work.read q.table
  let whole ← Work.ofExcept (Dataset.ofText q.table table (-1) ",")
  let (d, test) ← divide q c whole
  Work.makeFolder q.out
  Work.write (Files.join q.out "config.json") c.write
  Work.say ("Starting evolution: " ++ (c.value .maxGenerations).plain ++ " generations, population " ++
    (c.value .populationSize).plain)
  Work.say ("Dataset: " ++ q.table ++ " (" ++ toString d.size ++ " rows, variables " ++
    ", ".intercalate d.names ++ ")")
  let e ← Work.ofExcept (c.evolution d)
  let archive ← Work.change (Archive.create (Files.join q.out "archive") q.saveEvery)
  let started ← Work.now
  let (e, archive) ← evolve q e archive
  let ended ← Work.now
  let tree := e.best.bind (·.tree)
  let treePath := Files.join q.out "best_tree.json"
  Work.write treePath (treeJson tree)
  let _ ← Work.change archive.report
  Work.say ("\nEvolution finished (" ++ e.phase.name ++ ") in " ++
    Number.fixedText 1 (ended - started) ++ "s")
  Work.say ("Best fitness: " ++ Report.number e.bestFitness)
  Work.say ("Best expression: " ++ treeText tree)
  match test with
  | none => pure ()
  | some held => do
    let evaluator ← Work.ofExcept (c.evaluator held)
    let fitness ← Work.ofExcept (evaluator.fitness tree)
    Work.say ("Test fitness: " ++ Number.briefText fitness)
  Work.say ("Best tree saved to " ++ treePath)

end Evolve
end FormulaEvolution
