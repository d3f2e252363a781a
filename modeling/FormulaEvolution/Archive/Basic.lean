/-
# Archives

An archive keeps the story of a run in a folder: a log of all generations, the best tree of every
few of them, and a report.

* `logs/evolution_log.json` is the log, written anew after each generation;
* `trees/` holds the trees;
* `summary.txt` is the report.
-/
import FormulaEvolution.Archive.Report
import FormulaEvolution.Files
import FormulaEvolution.Tree.Document

namespace FormulaEvolution

/-- Where commands work: files, and a clock. -/
structure Workspace where
  files : Files := {}
  clock : Clock := []

/-- An archive in a folder.  The best tree of every `interval`-th generation is saved. -/
structure Archive where
  folder : String
  interval : Nat
  log : List LogEntry := []
  positive : 0 < interval

namespace Archive

/-! ## 1. Places -/

/-- The folder of the log. -/
def logFolder (folder : String) : String := Files.join folder "logs"

/-- The folder of the trees. -/
def treeFolder (folder : String) : String := Files.join folder "trees"

/-- Where the log is. -/
def logPath (a : Archive) : String := Files.join (logFolder a.folder) "evolution_log.json"

/-- Where the report is. -/
def reportPath (a : Archive) : String := Files.join a.folder "summary.txt"

/-- Where a tree is. -/
def treePath (a : Archive) (name : String) : String := Files.join (treeFolder a.folder) name

/-- A generation with at least four places, a minus sign included. -/
def generationText (generation : Int) : String :=
  if generation < 0 then "-" ++ Moment.padded 3 generation.natAbs
  else Moment.padded 4 generation.natAbs

/-- The name of the best tree of a generation. -/
def treeName (generation : Int) : String := "gen_" ++ generationText generation ++ "_best.json"

/-- Make an archive in a folder; it saves trees at least as often as it is told of generations. -/
def create (folder : String) (saveEvery : Int) (f : Files) : Except Failure (Archive × Files) := do
  let f ← f.makeFolder (logFolder folder)
  let f ← f.makeFolder (treeFolder folder)
  return ({ folder, interval := (max 1 saveEvery).toNat, positive := by omega }, f)

/-! ## 2. Trees -/

/-- Save a tree under a name. -/
def saveTree (a : Archive) (t : Option Tree) (name : String) (f : Files) : Except Failure Files :=
  f.write (a.treePath name) (treeJson t)

/-- Load a tree that has been saved under a name. -/
def loadTree (a : Archive) (g : Grammar) (name : String) (f : Files) :
    Except Failure (Option Tree) := do
  treeOfJson g (← f.read (a.treePath name))

/-- The end of the name of a saved tree. -/
def treeEnding : List Char := ".json".toList

/-- The names of the saved trees, in rising order. -/
def treeNames (a : Archive) (f : Files) : List String :=
  ((f.namesIn (treeFolder a.folder)).filter fun name =>
    treeEnding.isSuffixOf name.toList).mergeSort fun x y => x ≤ y

/-! ## 3. The log -/

/-- Whether the best tree of a generation is saved. -/
def isDue (a : Archive) (generation : Int) : Bool := generation % a.interval = 0

/-- Record a generation: its tree if it is due, and its entry in the log. -/
def record (a : Archive) (event : GenerationEvent) (w : Workspace) :
    Except Failure LogEntry × Archive × Workspace :=
  let (timestamp, clock) := w.clock.read
  let w := { w with clock }
  let saved : Except Failure (Option String × Files) :=
    match a.isDue event.generation, event.bestTree with
    | true, some t => do
      let name := treeName event.generation
      return (some name, ← a.saveTree t name w.files)
    | _, _ => .ok (none, w.files)
  match saved with
  | .error failure => (.error failure, a, w)
  | .ok (treeFile, files) =>
    let w := { w with files }
    match Moment.text timestamp with
    | .error failure => (.error failure, a, w)
    | .ok moment =>
      let entry := LogEntry.ofEvent event timestamp moment treeFile
      let a := { a with log := a.log ++ [entry] }
      match w.files.write a.logPath (LogEntry.writeAll a.log) with
      | .error failure => (.error failure, a, w)
      | .ok files => (.ok entry, a, { w with files })

/-- Read the log that is in the folder. -/
def readLog (a : Archive) (f : Files) : Except Failure Json := do
  match Json.read (← f.read a.logPath) with
  | .ok log => return log
  | .error fault => throw (.document fault)

/-! ## 4. The report -/

/-- What is said instead of a report when there is no entry. -/
def nothingToReport : String := "No evolution data to summarize"

/-- Make the report and write it down. -/
def report (a : Archive) (f : Files) : Except Failure (String × Files) := do
  match Report.ofLog? a.log with
  | none => return (nothingToReport, f)
  | some result => do
    let text ← result
    return (text, ← f.write a.reportPath text)

end Archive
end FormulaEvolution
