/-
# Recording generations

What comes of recording a generation is one of four things (`Archive.Recording`): its tree cannot be
saved, its time has no text, its entry is in the log but the log cannot be written, or all is well.  No
more is needed about a single step.

An archive that is told of generations one after the other (`Archive.after`) stays where it is and has the
entries of some of them, in their order; of all of them if all are recorded (`Archive.Accepts`).  No folder
comes or goes.
-/
import FormulaEvolution.Archive.Basic
import FormulaEvolution.Proofs.Files
import FormulaEvolution.Proofs.Sequence

namespace FormulaEvolution
namespace Archive

variable {a : Archive} {event : GenerationEvent} {events : List GenerationEvent} {w : Workspace}
  {f g : Files} {folder : String} {saveEvery : Int}

/-! ## 1. One generation -/

/-- The name under which the best tree of a generation is saved, if it is. -/
def treeName? (a : Archive) (event : GenerationEvent) : Option String :=
  if a.isDue event.generation then event.bestTree.map fun _ => treeName event.generation else none

/-- Save the best tree of a generation, if it is due. -/
def keepTree (a : Archive) (event : GenerationEvent) (f : Files) : Except Failure Files :=
  match a.isDue event.generation, event.bestTree with
  | true, some t => a.saveTree t (treeName event.generation) f
  | _, _ => .ok f

/-- The entry of a generation that is recorded at some time. -/
def entryAt (a : Archive) (event : GenerationEvent) (time : Float) (moment : String) : LogEntry :=
  .ofEvent event time moment (a.treeName? event)

/-- The archive with one entry more. -/
def noting (a : Archive) (entry : LogEntry) : Archive := { a with log := a.log ++ [entry] }

/-- What comes of recording a generation: how it ends, and the archive and the workspace that it leaves. -/
inductive Recording (a : Archive) (event : GenerationEvent) (w : Workspace) :
    Except Failure LogEntry × Archive × Workspace → Prop
  | unsaved {failure : Failure} (hsaved : a.keepTree event w.files = .error failure) :
    Recording a event w (.error failure, a, { w with clock := w.clock.read.2 })
  | untimed {failure : Failure} {kept : Files} (hsaved : a.keepTree event w.files = .ok kept)
      (htime : Moment.text w.clock.read.1 = .error failure) :
    Recording a event w (.error failure, a, { files := kept, clock := w.clock.read.2 })
  | unwritten {failure : Failure} {kept : Files} {moment : String}
      (hsaved : a.keepTree event w.files = .ok kept) (htime : Moment.text w.clock.read.1 = .ok moment)
      (hwritten : kept.write a.logPath (LogEntry.writeAll (a.noting
        (a.entryAt event w.clock.read.1 moment)).log) = .error failure) :
    Recording a event w (.error failure, a.noting (a.entryAt event w.clock.read.1 moment),
      { files := kept, clock := w.clock.read.2 })
  | recorded {kept files : Files} {moment : String}
      (hsaved : a.keepTree event w.files = .ok kept) (htime : Moment.text w.clock.read.1 = .ok moment)
      (hwritten : kept.write a.logPath (LogEntry.writeAll (a.noting
        (a.entryAt event w.clock.read.1 moment)).log) = .ok files) :
    Recording a event w (.ok (a.entryAt event w.clock.read.1 moment),
      a.noting (a.entryAt event w.clock.read.1 moment), { files, clock := w.clock.read.2 })

/-- The tree comes first, then the time, then the log. -/
theorem record_eq (a : Archive) (event : GenerationEvent) (w : Workspace) :
    a.record event w = match a.keepTree event w.files with
      | .error failure => (.error failure, a, { w with clock := w.clock.read.2 })
      | .ok kept =>
        match Moment.text w.clock.read.1 with
        | .error failure => (.error failure, a, { files := kept, clock := w.clock.read.2 })
        | .ok moment =>
          let entry := a.entryAt event w.clock.read.1 moment
          match kept.write a.logPath (LogEntry.writeAll (a.noting entry).log) with
          | .error failure =>
            (.error failure, a.noting entry, { files := kept, clock := w.clock.read.2 })
          | .ok files => (.ok entry, a.noting entry, { files, clock := w.clock.read.2 }) := by
  simp only [record, keepTree, entryAt, treeName?, noting]
  cases hdue : a.isDue event.generation with
  | false => rfl
  | true =>
    cases htree : event.bestTree with
    | none => rfl
    | some t =>
      cases hsaved : a.saveTree t (treeName event.generation) w.files with
      | error failure => simp [hsaved, bind, Except.bind]
      | ok kept => simp [hsaved, bind, Except.bind, pure, Except.pure]; rfl

/-- **Recording comes to one of four things.** -/
theorem recording (a : Archive) (event : GenerationEvent) (w : Workspace) :
    Recording a event w (a.record event w) := by
  rw [record_eq]
  cases hsaved : a.keepTree event w.files with
  | error failure => exact .unsaved hsaved
  | ok kept =>
    simp only
    cases htime : Moment.text w.clock.read.1 with
    | error failure => exact .untimed hsaved htime
    | ok moment =>
      simp only
      cases hwritten : kept.write a.logPath
          (LogEntry.writeAll (a.noting (a.entryAt event w.clock.read.1 moment)).log) with
      | error failure => exact .unwritten hsaved htime hwritten
      | ok files => exact .recorded hsaved htime hwritten

/-- An archive is left as it was, or with the entry of the generation. -/
theorem archive_of_record (a : Archive) (event : GenerationEvent) (w : Workspace) :
    (a.record event w).2.1 = a ∨ ∃ time moment, Moment.text time = .ok moment ∧
      (a.record event w).2.1 = a.noting (a.entryAt event time moment) := by
  have h := a.recording event w
  generalize a.record event w = left at h ⊢
  cases h with
  | unsaved hsaved => exact .inl rfl
  | untimed hsaved htime => exact .inl rfl
  | unwritten hsaved htime hwritten => exact .inr ⟨_, _, htime, rfl⟩
  | recorded hsaved htime hwritten => exact .inr ⟨_, _, htime, rfl⟩

/-- A generation that is recorded is in the log, and the log is in its file. -/
theorem record_ok {entry : LogEntry} (h : (a.record event w).1 = .ok entry) :
    ∃ time moment kept, Moment.text time = .ok moment ∧ entry = a.entryAt event time moment ∧
      (a.record event w).2.1 = a.noting entry ∧ a.keepTree event w.files = .ok kept ∧
      kept.write a.logPath (LogEntry.writeAll (a.noting entry).log) =
        .ok (a.record event w).2.2.files := by
  have hstep := a.recording event w
  generalize a.record event w = left at h hstep ⊢
  cases hstep with
  | unsaved hsaved => cases h
  | untimed hsaved htime => cases h
  | unwritten hsaved htime hwritten => cases h
  | recorded hsaved htime hwritten =>
    cases h
    exact ⟨_, _, _, htime, rfl, rfl, hsaved, hwritten⟩

theorem hasFolder_keepTree (h : a.keepTree event f = .ok g) (r : List String) :
    g.hasFolder r = f.hasFolder r := by
  unfold keepTree at h
  split at h
  · exact Files.hasFolder_write h r
  · cases h
    rfl

/-- Recording neither makes folders nor takes any away. -/
theorem hasFolder_record (a : Archive) (event : GenerationEvent) (w : Workspace) (r : List String) :
    (a.record event w).2.2.files.hasFolder r = w.files.hasFolder r := by
  have h := a.recording event w
  generalize a.record event w = left at h ⊢
  cases h with
  | unsaved hsaved => rfl
  | untimed hsaved htime => exact hasFolder_keepTree hsaved r
  | unwritten hsaved htime hwritten => exact hasFolder_keepTree hsaved r
  | recorded hsaved htime hwritten =>
    exact (Files.hasFolder_write hwritten r).trans (hasFolder_keepTree hsaved r)

/-! ## 2. Many generations -/

/-- An archive and its workspace after it has been told of some generations, whatever came of it. -/
def after (a : Archive) (w : Workspace) : List GenerationEvent → Archive × Workspace
  | [] => (a, w)
  | event :: events => after (a.record event w).2.1 (a.record event w).2.2 events

/-- All of some generations are recorded. -/
def Accepts (a : Archive) (w : Workspace) : List GenerationEvent → Prop
  | [] => True
  | event :: events => (∃ entry, (a.record event w).1 = .ok entry) ∧
    Accepts (a.record event w).2.1 (a.record event w).2.2 events

/-- **What each generation preserves holds after all of them.** -/
theorem after_keeps {P : Archive → Workspace → Prop}
    (hstep : ∀ a event w, P a w → P (a.record event w).2.1 (a.record event w).2.2) :
    ∀ {events : List GenerationEvent} {a : Archive} {w : Workspace}, P a w →
      P (a.after w events).1 (a.after w events).2
  | [], _, _, h => h
  | event :: _, a, w, h => by
    rw [after]
    exact after_keeps hstep (hstep a event w h)

/-- The archive stays where it is and saves trees as often as before. -/
theorem place_after (a : Archive) (w : Workspace) (events : List GenerationEvent) :
    (a.after w events).1.folder = a.folder ∧ (a.after w events).1.interval = a.interval := by
  refine after_keeps (P := fun b _ => b.folder = a.folder ∧ b.interval = a.interval)
    (fun b event v hb => ?_) ⟨rfl, rfl⟩
  rcases b.archive_of_record event v with hsame | ⟨time, moment, -, hnoted⟩
  · rwa [hsame]
  · rw [hnoted]
    exact hb

theorem hasFolder_after (a : Archive) (w : Workspace) (events : List GenerationEvent) (r : List String) :
    (a.after w events).2.files.hasFolder r = w.files.hasFolder r :=
  after_keeps (P := fun _ v => v.files.hasFolder r = w.files.hasFolder r)
    (fun b event v hv => (b.hasFolder_record event v r).trans hv) rfl

/-- An entry of a log is that of a generation, recorded at some time. -/
def EntryOf (a : Archive) (event : GenerationEvent) (entry : LogEntry) : Prop :=
  ∃ time moment, Moment.text time = .ok moment ∧ entry = a.entryAt event time moment

/-- **The log grows by entries of the generations told of**, in their order. -/
theorem log_after (a : Archive) (w : Workspace) (events : List GenerationEvent) :
    ∃ noted entries, noted.Sublist events ∧ List.Forall₂ a.EntryOf noted entries ∧
      (a.after w events).1.log = a.log ++ entries := by
  induction events generalizing a w with
  | nil => exact ⟨[], [], .refl [], .nil, (List.append_nil _).symm⟩
  | cons event events ih =>
    obtain ⟨noted, entries, hsub, hentries, hlog⟩ := ih (a.record event w).2.1 (a.record event w).2.2
    rcases a.archive_of_record event w with hsame | ⟨time, moment, htime, hnoted⟩
    · rw [hsame] at hentries
      refine ⟨noted, entries, hsub.cons event, hentries, hlog.trans ?_⟩
      rw [hsame]
    · rw [hnoted] at hentries
      refine ⟨event :: noted, a.entryAt event time moment :: entries, hsub.cons_cons event,
        .cons ⟨time, moment, htime, rfl⟩ hentries, hlog.trans ?_⟩
      rw [hnoted, noting, List.append_assoc, List.singleton_append]

/-- **If all generations are recorded, the log grows by an entry of each.** -/
theorem log_of_accepts (h : a.Accepts w events) : ∃ entries, List.Forall₂ a.EntryOf events entries ∧
    (a.after w events).1.log = a.log ++ entries := by
  induction events generalizing a w with
  | nil => exact ⟨[], .nil, (List.append_nil _).symm⟩
  | cons event events ih =>
    obtain ⟨⟨entry, hentry⟩, hrest⟩ := h
    obtain ⟨time, moment, kept, htime, rfl, hnoted, -, -⟩ := record_ok hentry
    obtain ⟨entries, hentries, hlog⟩ := ih hrest
    rw [hnoted] at hentries
    refine ⟨_ :: entries, .cons ⟨time, moment, htime, rfl⟩ hentries, hlog.trans ?_⟩
    rw [hnoted, noting, List.append_assoc, List.singleton_append]

/-- If all generations are recorded, none is missing among those that the log has an entry of. -/
theorem noted_eq {noted : List GenerationEvent} {entries : List LogEntry} (h : a.Accepts w events)
    (hsub : noted.Sublist events) (hentries : List.Forall₂ a.EntryOf noted entries)
    (hlog : (a.after w events).1.log = a.log ++ entries) : noted = events := by
  obtain ⟨entries', hentries', hlog'⟩ := log_of_accepts h
  obtain rfl := List.append_cancel_left (hlog.symm.trans hlog')
  exact hsub.eq_of_length (hentries.length_eq.trans hentries'.length_eq.symm)

/-! ## 3. New archives -/

theorem isStep_logs : Files.IsStep "logs" := ⟨by decide, ⟨by decide, by decide⟩, by decide⟩

theorem isStep_trees : Files.IsStep "trees" := ⟨by decide, ⟨by decide, by decide⟩, by decide⟩

/-- What is known of an archive that has just been made. -/
structure Fresh (a : Archive) (folder : String) (saveEvery : Int) (f g : Files) : Prop where
  folder_eq : a.folder = folder
  interval_eq : a.interval = (max 1 saveEvery).toNat
  log_eq : a.log = []
  base : g.hasFolder (Files.route folder) = true
  trees : g.hasFolder (Files.route (treeFolder folder)) = true
  kept : g.texts = f.texts

theorem fresh_of_create (h : create folder saveEvery f = .ok (a, g)) : a.Fresh folder saveEvery f g := by
  unfold create at h
  obtain ⟨f₁, hlogs, h⟩ := Except.bind_ok h
  obtain ⟨f₂, htrees, h⟩ := Except.bind_ok h
  cases h
  obtain ⟨-, -, hsame⟩ := Files.makeFolder_ok hlogs
  obtain ⟨-, halong, hsame'⟩ := Files.makeFolder_ok htrees
  rw [treeFolder, Files.route_join folder isStep_trees] at halong
  refine ⟨rfl, rfl, rfl, ?_, ?_, hsame'.trans hsame⟩
  · have hbase := halong (Files.route folder).length
    rwa [List.take_left] at hbase
  · have hwhole := halong (Files.route folder ++ ["trees"]).length
    rwa [List.take_length, ← Files.route_join folder isStep_trees] at hwhole

/-! ## 4. A small archive -/

/-- A new archive that saves the tree of every generation. -/
def small : Archive where
  folder := "run"
  interval := 1
  positive := by decide

/-- The folders of the small archive. -/
def smallFiles : Files := { folders := ["run", "run/logs", "run/trees"] }

theorem create_small : create "run" 1 {} = .ok (small, smallFiles) := rfl

/-- A generation that comes with nothing but its fitness values. -/
def bare (generation : Int) : GenerationEvent where
  generation
  bestFitness := some 0.5
  averageFitness := some 0.25
  bestTree := none

end Archive
end FormulaEvolution
