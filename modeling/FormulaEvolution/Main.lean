/-
# The program at a terminal

The files that the words of the command line name are read, the command is run on them, and what it
has written is written down.
-/
import FormulaEvolution.Command.Dispatch

namespace FormulaEvolution
namespace Terminal

/-- The texts that may be paths: words, and what words hold after an equals sign or a letter. -/
def candidates (words : List String) : List String :=
  words.flatMap fun word =>
    [word, String.ofList (word.toList.drop 2), ((Line.cutAtEquals word).2).getD ""]

/-- The file at a path, if it can be read. -/
def load (path : String) : IO (Option (String × String)) := do
  if path = "" then return none
  try
    let text ← IO.FS.readFile path
    return some (path, text)
  catch _ => return none

/-- The time, in seconds since the start of 1970: that of a file which is made for it. -/
def time : IO Float := do
  let (_, place) ← IO.FS.createTempFile
  let made := (← place.metadata).modified
  IO.FS.removeFile place
  return Float.ofInt made.sec + made.nsec.toNat.toFloat / 1000000000.0

/-- Write down the files that have been written or changed. -/
def save (before after : Files) : IO Unit := do
  for folder in after.folders do
    if !before.folders.contains folder then IO.FS.createDirAll folder
  for (path, text) in after.texts do
    if before.texts.value? path != some text then IO.FS.writeFile path text

end Terminal
end FormulaEvolution

open FormulaEvolution in
/-- Run the program on the words of a command line. -/
def main (words : List String) : IO UInt32 := do
  let found ← (Terminal.candidates words).filterMapM Terminal.load
  match Files.ofList found with
  | .error failure =>
    IO.eprintln (reportLine failure)
    return 1
  | .ok files =>
    let clock := [← Terminal.time]
    let (ending, after) := Command.run words { files, clock }
    Terminal.save files after.files
    IO.print (ending.printed.getD "")
    match ending.raised with
    | some failure => IO.eprintln (reportLine failure)
    | none => pure ()
    return ending.code.toUInt32
