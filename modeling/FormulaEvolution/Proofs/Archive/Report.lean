/-
# When there is a report

An archive that has recorded some generations can report on them unless the last one came with its
population and the first one did not, or a folder stands where the report goes
(`Archive.report_iff`).  All else that may be missing, a best tree, a finite fitness value or candidates in
a population, is left blank.

The part about the sizes of trees looks for the census of the first generation although only that of the
last one is known to be there.  Two generations, the second one with its population, are enough
(`Archive.report_refused`).
-/
import FormulaEvolution.Proofs.Archive.Record

namespace FormulaEvolution

/-- There is no report if the last generation has a census and the first one has none. -/
theorem Report.body_error {log : List LogEntry} {first last : LogEntry}
    (hlast : last.census.isSome) (hfirst : first.census = none) :
    Report.body log first last = .error (.absentKey "stats") := by
  obtain ⟨census, hcensus⟩ := Option.isSome_iff_exists.mp hlast
  rw [Report.body, hfirst, hcensus]
  rfl

namespace Archive

variable {a b : Archive} {first last : GenerationEvent} {events : List GenerationEvent} {w : Workspace}
  {f g : Files} {folder : String} {saveEvery : Int} {clock : Clock}

theorem isStep_summary : Files.IsStep "summary.txt" := ⟨by decide, ⟨by decide, by decide⟩, by decide⟩

/-- An entry has a census if its generation has come with a population. -/
theorem EntryOf.census_isSome {event : GenerationEvent} {entry : LogEntry} (h : a.EntryOf event entry) :
    entry.census.isSome = event.population.isSome := by
  obtain ⟨time, moment, -, rfl⟩ := h
  exact Option.isSome_map

theorem getLast?_of_forall₂ {α β : Type} {R : α → β → Prop} {as : List α} {bs : List β} {x : α}
    (h : List.Forall₂ R as bs) (hx : as.getLast? = some x) : ∃ y, bs.getLast? = some y ∧ R x y := by
  obtain ⟨before, rfl⟩ := List.getLast?_eq_some_iff.mp hx
  obtain ⟨before', y, rest, rfl, -, hy, hrest⟩ := split_of_forall₂ h.flip
  obtain rfl := List.forall₂_nil_right_iff.mp hrest
  exact ⟨y, List.getLast?_concat, hy⟩

/-- The report of recorded generations is about the first and the last one of them. -/
theorem ofLog?_of_accepts (hnew : a.log = []) (h : a.Accepts w events) (hfirst : events.head? = some first)
    (hlast : events.getLast? = some last) :
    ∃ log x y, (a.after w events).1.log = log ∧ a.EntryOf first x ∧ a.EntryOf last y ∧
      Report.ofLog? log = some (Report.body log x y) := by
  obtain ⟨entries, hentries, hlog⟩ := log_of_accepts h
  rw [hnew, List.nil_append] at hlog
  obtain ⟨y, hy, hlastEntry⟩ := getLast?_of_forall₂ hentries hlast
  obtain ⟨rest, rfl⟩ := List.head?_eq_some_iff.mp hfirst
  obtain ⟨x, entries', hfirstEntry, -, rfl⟩ := List.forall₂_cons_left_iff.mp hentries
  refine ⟨_, x, y, hlog, hfirstEntry, hlastEntry, ?_⟩
  simp only [Report.ofLog?, hy]

/-- Making a report is making its text and writing it down. -/
theorem report_ok_iff {result : Except Failure String} {text : String}
    (h : Report.ofLog? b.log = some result) :
    b.report f = .ok (text, g) ↔ result = .ok text ∧ f.write b.reportPath text = .ok g := by
  rw [report, h]
  cases result with
  | error failure => exact iff_of_false nofun nofun
  | ok text' =>
    simp only [bind, Except.bind, pure, Except.pure, Except.ok.injEq]
    cases hwrite : f.write b.reportPath text' with
    | error failure =>
      refine iff_of_false nofun ?_
      rintro ⟨rfl, hother⟩
      rw [hwrite] at hother
      cases hother
    | ok g' =>
      constructor
      · rintro h
        cases h
        exact ⟨rfl, hwrite⟩
      · rintro ⟨rfl, hother⟩
        rw [hwrite] at hother
        cases hother
        rfl

/-- **There is no report on generations of which the last one has come with its population and the first
one has not.** -/
theorem report_error (hnew : a.log = []) (h : a.Accepts w events) (hfirst : events.head? = some first)
    (hlast : events.getLast? = some last) (hsome : last.population.isSome) (hnone : first.population = none)
    (f : Files) : (a.after w events).1.report f = .error (.absentKey "stats") := by
  obtain ⟨log, x, y, hlog, hx, hy, hreport⟩ := ofLog?_of_accepts hnew h hfirst hlast
  have hempty : x.census = none := by
    rw [← Option.isNone_iff_eq_none, ← Option.not_isSome, hx.census_isSome, hnone]
    rfl
  rw [report, hlog, hreport, Report.body_error (hy.census_isSome ▸ hsome) hempty]
  rfl

/-- **When there is a report** on generations that a new archive has recorded: exactly if the first one has
come with its population, or the last one has not, and no folder stands in the way.  The report can then be
read in the folder of the archive.  Otherwise, if no folder stands in the way, what fails is the look at the
census of the first generation. -/
theorem report_iff (hcreate : create folder saveEvery f = .ok (a, g))
    (haccepts : a.Accepts ⟨g, clock⟩ events) (hafter : a.after ⟨g, clock⟩ events = (b, w))
    (hfirst : events.head? = some first) (hlast : events.getLast? = some last) :
    ((∃ text v, b.report w.files = .ok (text, v)) ↔
      (last.population.isSome → first.population.isSome) ∧
        g.hasFolder (Files.route a.reportPath) = false) ∧
    (∀ text v, b.report w.files = .ok (text, v) → v.read b.reportPath = .ok text) ∧
    (last.population.isSome ∧ first.population = none →
      b.report w.files = .error (.absentKey "stats")) := by
  have hfresh := fresh_of_create hcreate
  obtain ⟨log, x, y, hlog, hx, hy, hreport⟩ := ofLog?_of_accepts hfresh.log_eq haccepts hfirst hlast
  have herror := fun hsome hnone files =>
    report_error hfresh.log_eq haccepts hfirst hlast hsome hnone files
  obtain ⟨hfolder, -⟩ := a.place_after ⟨g, clock⟩ events
  have hfolders := a.hasFolder_after ⟨g, clock⟩ events
  rw [hafter] at hlog hfolder hfolders herror
  have hpath : b.reportPath = a.reportPath := by rw [reportPath, hfolder, reportPath]
  have hroute : (Files.route a.reportPath).dropLast = Files.route folder := by
    rw [reportPath, hfresh.folder_eq, Files.route_join folder isStep_summary, List.dropLast_concat]
  rw [← hlog] at hreport
  refine ⟨⟨?_, ?_⟩, fun text v hdone => ?_, fun h => herror h.1 h.2 w.files⟩
  · rintro ⟨text, v, hdone⟩
    obtain ⟨-, hwrite⟩ := (report_ok_iff hreport).mp hdone
    obtain ⟨hfree, -⟩ := Files.write_isOk_iff.mp ⟨v, hwrite⟩
    refine ⟨fun hsome => ?_, by rwa [hfolders, hpath] at hfree⟩
    by_contra hnone
    rw [Option.not_isSome_iff_eq_none] at hnone
    rw [herror hsome hnone] at hdone
    cases hdone
  · rintro ⟨hcensus, hfree⟩
    rw [← hx.census_isSome, ← hy.census_isSome] at hcensus
    obtain ⟨text, htext⟩ : ∃ text, Report.body b.log x y = .ok text := Report.body_ok hcensus
    obtain ⟨v, hv⟩ : ∃ v, w.files.write b.reportPath text = .ok v := by
      refine Files.write_isOk_iff.mpr ?_
      rw [hfolders, hfolders, hpath, hroute]
      exact ⟨hfree, hfresh.base⟩
    exact ⟨text, v, (report_ok_iff hreport).mpr ⟨htext, hv⟩⟩
  · obtain ⟨-, hwrite⟩ := (report_ok_iff hreport).mp hdone
    exact Files.read_write hwrite

/-- A generation that comes with a population of one candidate. -/
def peopled (generation : Int) : GenerationEvent :=
  { bare generation with
    population := some [{ tree := some (.variable (.forVariable "x0")), fitness := some 0.5 }] }

/-- There is a report on two generations of which the first one has come with its population. -/
theorem report_small : small.Accepts ⟨smallFiles, []⟩ [peopled 1, bare 2] ∧
    ∃ text v, (small.after ⟨smallFiles, []⟩ [peopled 1, bare 2]).1.report
      (small.after ⟨smallFiles, []⟩ [peopled 1, bare 2]).2.files = .ok (text, v) := by
  have haccepts : small.Accepts ⟨smallFiles, []⟩ [peopled 1, bare 2] :=
    ⟨Except.ok_of_toBool (by decide +kernel), Except.ok_of_toBool (by decide +kernel), trivial⟩
  have hreport := report_iff create_small haccepts (Prod.eta _).symm rfl rfl
  exact ⟨haccepts, hreport.1.mpr ⟨fun _ => rfl, by decide +kernel⟩⟩

/-- **There is no report on two generations of which only the second one has come with its population**,
although both are recorded and no folder stands in the way. -/
theorem report_refused : small.Accepts ⟨smallFiles, []⟩ [bare 1, peopled 2] ∧
    smallFiles.hasFolder (Files.route small.reportPath) = false ∧
    (small.after ⟨smallFiles, []⟩ [bare 1, peopled 2]).1.report
      (small.after ⟨smallFiles, []⟩ [bare 1, peopled 2]).2.files = .error (.absentKey "stats") := by
  have haccepts : small.Accepts ⟨smallFiles, []⟩ [bare 1, peopled 2] :=
    ⟨Except.ok_of_toBool (by decide +kernel), Except.ok_of_toBool (by decide +kernel), trivial⟩
  exact ⟨haccepts, by decide +kernel, report_error rfl haccepts rfl rfl rfl rfl _⟩

end Archive
end FormulaEvolution
