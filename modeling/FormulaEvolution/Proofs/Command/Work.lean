/-
# Work that is done

Work in sequence is done exactly if each part is, at the desk that the part before has left
(`Work.bind_ok_iff`).  So a command that has ended well can be taken apart from its first step to its
last, and a command whose steps are known to succeed can be put together.

Where only the files matter, `Work.Leads` says what comes of work at every desk with the same files,
and `Work.Gives` that there is one result and one way the files are left.
-/
import FormulaEvolution.Command.Desk
import FormulaEvolution.Dataset.Separated
import FormulaEvolution.Proofs.Sequence

namespace FormulaEvolution

/-- Read a file as a text, with line feeds only between its lines. -/
def Files.readText (f : Files) (path : String) : Except Failure String := do
  let text ← f.read path
  return String.ofList (Text.normalizeLines text.toList)

/-- The dataset in a file. -/
def Files.table (f : Files) (path : String) : Except Failure Dataset := do
  let text ← f.readText path
  Dataset.ofText path text (-1) ","

theorem Files.table_of_text {f : Files} {path text : String} (h : f.readText path = .ok text) :
    f.table path = Dataset.ofText path text (-1) "," := by
  simp only [Files.table, h, bind, Except.bind]

theorem Files.table_of_read {f g : Files} {path : String} (h : f.read path = g.read path) :
    f.table path = g.table path := by
  simp only [Files.table, Files.readText, h]

namespace Work

/-- What has been printed after some more lines. -/
def printed (before : String) (lines : List String) : String :=
  lines.foldl (fun text line => text ++ line ++ "\n") before

variable {α β : Type} {d d' d'' : Desk}

/-! ## 1. One step after the other -/

/-- **Work in sequence is done if both parts are**, the second one at the desk that the first one has
left. -/
theorem bind_ok_iff {work : Work α} {next : α → Work β} {b : β} :
    (work >>= next).perform d = (.ok b, d'') ↔
      ∃ a d', work.perform d = (.ok a, d') ∧ (next a).perform d' = (.ok b, d'') :=
  run_bind_ok_iff

theorem bind_of_ok {work : Work α} {a : α} (next : α → Work β)
    (h : work.perform d = (.ok a, d')) : (work >>= next).perform d = (next a).perform d' :=
  run_bind_ok h

/-- After a step that fails nothing is done. -/
theorem bind_error {work : Work α} {failure : Failure} (next : α → Work β)
    (h : work.perform d = (.error failure, d')) :
    (work >>= next).perform d = (.error failure, d') := run_bind_error h

@[simp] theorem perform_ofExcept (result : Except Failure α) :
    (ofExcept result).perform d = (result, d) := rfl

@[simp] theorem perform_say (line : String) :
    (say line).perform d = (.ok (), { d with printed := d.printed ++ line ++ "\n" }) := rfl

theorem ofExcept_ok {result : Except Failure α} {a : α} (h : result = .ok a) :
    (ofExcept result).perform d = (.ok a, d) := by rw [perform_ofExcept, h]

theorem perform_read (path : String) :
    (read path).perform d = (d.workspace.files.readText path, d) := rfl

theorem read_ok {path text : String} (h : d.workspace.files.readText path = .ok text) :
    (read path).perform d = (.ok text, d) := by rw [perform_read, h]

/-- A change that is made is made to the files, and to nothing else. -/
theorem change_ok_iff {f : Files → Except Failure (α × Files)} {a : α} :
    (change f).perform d = (.ok a, d') ↔ ∃ files, f d.workspace.files = .ok (a, files) ∧
      d' = { d with workspace := { d.workspace with files } } := by
  simp only [change, perform]
  cases hf : f d.workspace.files with
  | error failure =>
    constructor
    · intro h
      cases h
    · rintro ⟨files, heq, -⟩
      cases heq
  | ok made =>
    obtain ⟨a', files⟩ := made
    constructor
    · intro h
      cases h
      exact ⟨files, rfl, rfl⟩
    · rintro ⟨files, heq, rfl⟩
      cases heq
      rfl

/-- A change that gives nothing but files. -/
theorem change_files_ok_iff {f : Files → Except Failure Files} :
    (change fun files => do
      let files ← f files
      return ((), files)).perform d = (.ok (), d') ↔
    ∃ files, f d.workspace.files = .ok files ∧
      d' = { d with workspace := { d.workspace with files } } := by
  rw [change_ok_iff]
  refine exists_congr fun files => and_congr_left fun _ => ?_
  constructor
  · intro h
    obtain ⟨_, hfiles, h⟩ := Except.bind_ok h
    cases h
    exact hfiles
  · intro hfiles
    rw [hfiles]
    rfl

theorem write_ok_iff {path text : String} : (write path text).perform d = (.ok (), d') ↔
    ∃ files, d.workspace.files.write path text = .ok files ∧
      d' = { d with workspace := { d.workspace with files } } := change_files_ok_iff

/-! ## 2. Files on the way -/

/-- Work that is done at every desk with the files `f`, with a result and files as in `P`.  What has
been printed before and what time it is make no difference to that. -/
def Leads (work : Work α) (f : Files) (P : α → Files → Prop) : Prop :=
  ∀ d : Desk, d.workspace.files = f → ∃ a d', work.perform d = (.ok a, d') ∧
    P a d'.workspace.files

variable {f g : Files} {P : β → Files → Prop}

theorem Leads.bind {Q : α → Files → Prop} {work : Work α} {next : α → Work β} (h : work.Leads f Q)
    (hnext : ∀ a g, Q a g → (next a).Leads g P) : (work >>= next).Leads f P := by
  intro d hd
  obtain ⟨a, d', hdone, ha⟩ := h d hd
  obtain ⟨b, d'', hdone', hb⟩ := hnext a _ ha d' rfl
  exact ⟨b, d'', bind_ok_iff.mpr ⟨a, d', hdone, hdone'⟩, hb⟩

theorem Leads.mono {Q : α → Files → Prop} {R : α → Files → Prop} {work : Work α}
    (h : work.Leads f Q) (hmono : ∀ a g, Q a g → R a g) : work.Leads f R := by
  intro d hd
  obtain ⟨a, d', hdone, ha⟩ := h d hd
  exact ⟨a, d', hdone, hmono _ _ ha⟩

/-- From files `f` work gives `a` and leaves files `g`. -/
def Gives (work : Work α) (f : Files) (a : α) (g : Files) : Prop :=
  work.Leads f fun b files => b = a ∧ files = g

theorem Gives.bind {work : Work α} {next : α → Work β} {a : α} (h : work.Gives f a g)
    (hnext : (next a).Leads g P) : (work >>= next).Leads f P :=
  Leads.bind h fun _ _ ⟨hb, hfiles⟩ => hb ▸ hfiles ▸ hnext

theorem Gives.result {work : Work α} {a : α} (h : work.Gives f a g)
    (hd : d.workspace.files = f) : (work.perform d).1 = .ok a := by
  obtain ⟨_, _, hdone, rfl, -⟩ := h d hd
  rw [hdone]

theorem gives_pure (a : α) : (pure a : Work α).Gives f a f := fun d hd => ⟨a, d, rfl, rfl, hd⟩

theorem gives_ofExcept {result : Except Failure α} {a : α} (h : result = .ok a) :
    (ofExcept result).Gives f a f := fun d hd => ⟨a, d, ofExcept_ok h, rfl, hd⟩

theorem gives_say (line : String) : (say line).Gives f () f := fun _ hd => ⟨(), _, rfl, rfl, hd⟩

theorem leads_now : now.Leads f fun _ files => files = f := fun _ hd => ⟨_, _, rfl, hd⟩

theorem gives_read {path text : String} (h : f.readText path = .ok text) :
    (read path).Gives f text f := fun d hd => ⟨text, d, read_ok (hd ▸ h), rfl, hd⟩

theorem gives_change {make : Files → Except Failure (α × Files)} {a : α}
    (h : make f = .ok (a, g)) : (change make).Gives f a g :=
  fun _ hd => ⟨a, _, change_ok_iff.mpr ⟨g, hd ▸ h, rfl⟩, rfl, rfl⟩

theorem gives_write {path text : String} (h : f.write path text = .ok g) :
    (write path text).Gives f () g :=
  fun _ hd => ⟨(), _, write_ok_iff.mpr ⟨g, hd ▸ h, rfl⟩, rfl, rfl⟩

theorem gives_makeFolder {path : String} (h : f.makeFolder path = .ok g) :
    (makeFolder path).Gives f () g :=
  fun _ hd => ⟨(), _, change_files_ok_iff.mpr ⟨g, hd ▸ h, rfl⟩, rfl, rfl⟩

/-! ## 3. Ends -/

variable {w : Workspace} {work : Work Unit}

/-- Work that is done ends well, and what it has printed is shown. -/
theorem conclude_of_done (h : work.perform { workspace := w } = (.ok (), d)) :
    work.conclude w = ({ code := 0, printed := some d.printed }, d.workspace) := by
  rw [conclude, h]

/-- A failure that is reported ends work with its line. -/
theorem conclude_of_reported {failure : Failure} (hreported : failure.isReported = true)
    (h : work.perform { workspace := w } = (.error failure, d)) :
    work.conclude w = ({ code := 1, printed := some (d.printed ++ reportLine failure ++ "\n") },
      d.workspace) := by
  simp only [conclude, h, hreported, if_true]

/-- **Only work that is done ends well.** -/
theorem done_of_conclude (h : (work.conclude w).1.code = 0) :
    ∃ d, work.perform { workspace := w } = (.ok (), d) := by
  unfold conclude at h
  split at h
  · next d hdone => exact ⟨d, hdone⟩
  · split at h <;> cases h

end Work
end FormulaEvolution
