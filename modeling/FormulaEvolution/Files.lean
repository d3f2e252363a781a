/-
# Files

Files and folders as data.  A path is a text whose names are separated by slashes; what a path leads
to depends on its names only, after steps that stay in place or lead back have been taken out.

A file can be written only into a folder that is there.
-/
import FormulaEvolution.Failure

namespace FormulaEvolution

/-- Folders, and files with their texts, each by the names from the root on, joined by slashes.  The
two places where paths start are folders that are always there. -/
structure Files where
  folders : List String := []
  texts : Dictionary String := []

namespace Files

/-! ## 1. Paths -/

/-- Whether a path starts at the root of everything. -/
def isAbsolute (path : String) : Bool := path.toList.head? == some '/'

/-- Go one name on, from the names gone before, innermost first. -/
def goOn (gone : List String) (name : String) : List String :=
  if name = "" ∨ name = "." then gone
  else if name = ".." then gone.drop 1
  else name :: gone

/-- The names of a path, outermost first.  An empty name is in front if the path starts at the root
of everything. -/
def route (path : String) : List String :=
  let names := ((Text.cutAt '/' path.toList).map String.ofList).foldl goOn []
  if isAbsolute path then "" :: names.reverse else names.reverse

/-- The path of a name in a folder. -/
def join (folder name : String) : String :=
  if isAbsolute name || folder = "" then name
  else if folder.toList.getLast? == some '/' then folder ++ name
  else folder ++ "/" ++ name

/-- Names in a row, joined. -/
def joined (names : List String) : String := "/".intercalate names

/-! ## 2. Looking -/

/-- Whether there is a folder at the end of a route. -/
def hasFolder (f : Files) (route : List String) : Bool :=
  route = [] || route = [""] || f.folders.contains (joined route)

/-- The text of the file at the end of a route, if there is one. -/
def text? (f : Files) (route : List String) : Option String := f.texts.value? (joined route)

/-- Whether there is a file at a path. -/
def hasFile (f : Files) (path : String) : Bool := (f.text? (route path)).isSome

/-- Why there is no file to be read or written at a path. -/
def refusal (f : Files) (path : String) : Failure :=
  if f.hasFolder (route path) then .isFolder path
  else if ((List.range (route path).length).any fun n => (f.text? ((route path).take n)).isSome) then
    .notFolder path
  else .missingFile path

/-- Read a file. -/
def read (f : Files) (path : String) : Except Failure String :=
  match f.text? (route path) with
  | some text => .ok text
  | none => .error (f.refusal path)

/-- The names of the files in a folder. -/
def namesIn (f : Files) (folder : String) : List String :=
  f.texts.filterMap fun (file, _) =>
    if (route file).dropLast = route folder then (route file).getLast? else none

/-! ## 3. Changing -/

/-- Write a file, in the place of the one that was there. -/
def write (f : Files) (path text : String) : Except Failure Files :=
  if !f.hasFolder (route path) && f.hasFolder (route path).dropLast then
    .ok { f with texts := f.texts.bind (joined (route path)) text }
  else .error (f.refusal path)

/-- Make the folders that are missing along a route of which `done` has been gone. -/
def makeAlong (path : String) (done : List String) : List String → Files → Except Failure Files
  | [], f => .ok f
  | name :: rest, f =>
    let here := done ++ [name]
    if f.hasFolder here then makeAlong path here rest f
    else if (f.text? here).isSome then
      match rest with
      | [] => .error (.blockedPath path)
      | next :: _ => .error (.notFolder (joined (here ++ [next])))
    else makeAlong path here rest { f with folders := f.folders ++ [joined here] }

/-- Make a folder and those that it lies in, as far as they are missing. -/
def makeFolder (f : Files) (path : String) : Except Failure Files :=
  if path = "" then .error (.missingFile path) else makeAlong path [] (route path) f

/-- Files at these paths, with the folders they lie in. -/
def ofList (files : List (String × String)) : Except Failure Files :=
  files.foldlM (fun f (path, text) => do
    let f ← makeAlong path [] (route path).dropLast f
    f.write path text) {}

/-! ## 4. Facts -/

/-- **What has been written is read.** -/
theorem read_write {f g : Files} {path text : String} (h : f.write path text = .ok g) :
    g.read path = .ok text := by
  unfold write at h
  split at h
  · injection h with h
    subst h
    simp [read, text?, Dictionary.value?_bind]
  · exact absurd h (by simp)

end Files
end FormulaEvolution
