/-
# The program

The first word of a command line names a command; the others are read as that command reads them.  A
line that does not fit ends with code 2 and does nothing.
-/
import FormulaEvolution.Command.Evaluate
import FormulaEvolution.Command.Evolve

namespace FormulaEvolution
namespace Command

/-- The code of a command line that does not fit. -/
def misuse : Ending := { code := 2 }

/-- Read a command line, and do what is asked for if it makes sense. -/
def follow {α : Type} (flags : List Flag) (words : List String)
    (request? : Line → Files → Option α) (work : α → Work Unit) (w : Workspace) :
    Ending × Workspace :=
  match Line.read flags words with
  | none => (misuse, w)
  | some l =>
    if l.isOn "help" then ({ code := 0 }, w)
    else
      match request? l w.files with
      | none => (misuse, w)
      | some q => (work q).conclude w

/-- Run a command line. -/
def run (words : List String) (w : Workspace) : Ending × Workspace :=
  match words with
  | "evolve" :: rest => follow Evolve.flags rest Evolve.request? Evolve.work w
  | "evaluate" :: rest => follow Evaluate.flags rest Evaluate.request? Evaluate.work w
  | "--help" :: _ => ({ code := 0 }, w)
  | _ => (misuse, w)

end Command
end FormulaEvolution
