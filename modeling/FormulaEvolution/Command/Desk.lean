/-
# Commands at work

A command works at a desk: it reads and writes files, looks at a clock, and prints.  It may fail on
the way; what it has printed and written stays.

Failures of the evolution itself and unusable arguments are reported in one line; any other failure
is passed on.
-/
import FormulaEvolution.Archive.Basic

namespace FormulaEvolution

/-- Where a command works: files and a clock, and what has been printed so far. -/
structure Desk where
  workspace : Workspace := {}
  printed : String := ""

/-- A piece of work at a desk. -/
abbrev Work (α : Type) := ExceptT Failure (StateM Desk) α

/-- How a command has ended. -/
structure Ending where
  code : Nat
  printed : Option String := none
  raised : Option Failure := none

namespace Work

/-- Work as if nothing had been printed before; gives the result and what there is afterwards. -/
def perform {α : Type} (work : Work α) (d : Desk) : Except Failure α × Desk := work d

/-- Go on with a result that is there already. -/
def ofExcept {α : Type} (result : Except Failure α) : Work α := fun d => (result, d)

/-- Print a line. -/
def say (line : String) : Work Unit :=
  fun d => (.ok (), { d with printed := d.printed ++ line ++ "\n" })

/-- Look at the clock. -/
def now : Work Float := fun d =>
  let (time, clock) := d.workspace.clock.read
  (.ok time, { d with workspace := { d.workspace with clock } })

/-- Look at the files. -/
def look {α : Type} (f : Files → Except Failure α) : Work α :=
  fun d => (f d.workspace.files, d)

/-- Change the files, and keep what the change gives. -/
def change {α : Type} (f : Files → Except Failure (α × Files)) : Work α := fun d =>
  match f d.workspace.files with
  | .ok (a, files) => (.ok a, { d with workspace := { d.workspace with files } })
  | .error failure => (.error failure, d)

/-- Read a file, with line feeds only between its lines. -/
def read (path : String) : Work String := look fun f => do
  let text ← f.read path
  return String.ofList (Text.normalizeLines text.toList)

/-- Write a file. -/
def write (path text : String) : Work Unit := change fun f => do
  let f ← f.write path text
  return ((), f)

/-- Make a folder. -/
def makeFolder (path : String) : Work Unit := change fun f => do
  let f ← f.makeFolder path
  return ((), f)

end Work

/-- The line that reports a failure. -/
def reportLine (failure : Failure) : String := "Error: " ++ failure.message?.getD ""

/-- Do some work; a failure that is reported ends it with a line, any other one is passed on. -/
def Work.conclude (work : Work Unit) (w : Workspace) : Ending × Workspace :=
  match work.perform { workspace := w } with
  | (.ok (), d) => ({ code := 0, printed := some d.printed }, d.workspace)
  | (.error failure, d) =>
    if failure.isReported then
      ({ code := 1, printed := some (d.printed ++ reportLine failure ++ "\n") }, d.workspace)
    else ({ code := 1, printed := some d.printed, raised := some failure }, d.workspace)

end FormulaEvolution
