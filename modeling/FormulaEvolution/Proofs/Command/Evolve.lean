/-
# What a finished evolution has left behind

An evolution command that ends well has read a configuration and a table, has made an evolution of
them, and has run it to its end (`Evolve.Story`).  The best tree is then in its file: it is written
before the report, and the report goes to another file (`Evolve.story_of_done`).

If no rows are held out, the last three lines that are printed name the fitness, the expression and
the file of the best tree.

An evolution of no generations ends well whenever the table suits the configuration and the files can
be written (`Evolve.leads_of_no_generations`): its listeners, which could fail, are told of nothing.
-/
import FormulaEvolution.Command.Evolve
import FormulaEvolution.Proofs.Archive.Record
import FormulaEvolution.Proofs.Command.Work
import FormulaEvolution.Proofs.Configuration.Described

namespace FormulaEvolution

/-! ## 1. The archive -/

namespace Archive

variable {a : Archive} {f g : Files}

/-- An archive that has been told of nothing reports without writing. -/
theorem report_of_create {folder : String} {saveEvery : Int} {f' : Files}
    (h : create folder saveEvery f = .ok (a, f')) : a.report g = .ok (nothingToReport, g) := by
  rw [report, (fresh_of_create h).log_eq]
  rfl

/-- Reporting writes no other file than the report. -/
theorem read_of_report {text path kept : String} (h : a.report f = .ok (text, g))
    (hother : Files.joined (Files.route a.reportPath) ≠ Files.joined (Files.route path))
    (hread : f.read path = .ok kept) : g.read path = .ok kept := by
  unfold report at h
  split at h
  · cases h
    exact hread
  · obtain ⟨_, -, h⟩ := Except.bind_ok h
    obtain ⟨_, hwrite, h⟩ := Except.bind_ok h
    cases h
    exact Files.read_of_write_other hwrite hother hread

end Archive

namespace Evolve

variable {q : Request} {d d' : Desk}

/-- The listeners leave the archive in its folder. -/
theorem folder_hear (verbose : Bool) (maxGenerations : Int) (name : String) (event : GenerationEvent)
    (t : Audience) :
    ((surroundings verbose maxGenerations).hear name event t).2.archive.folder =
      t.archive.folder := by
  unfold surroundings
  simp only
  split
  · have hrecord := (t.archive.place_after t.desk.workspace [event]).1
    rw [Archive.after, Archive.after] at hrecord
    split
    · next heq =>
      rw [heq] at hrecord
      exact hrecord
    · next heq =>
      rw [heq] at hrecord
      exact hrecord
  · split <;> rfl

theorem perform_evolve (e : Evolution Twister) (archive : Archive) :
    (evolve q e archive).perform d =
      match ((e.listen archiver).listen narrator).run
        (surroundings q.verbose e.limits.maxGenerations) { archive, desk := d } with
      | (.ok (), e, t) => (.ok (e, t.archive), t.desk)
      | (.error failure, _, t) => (.error failure, t.desk) := rfl

/-- An evolution that is done has been run with its two listeners, and has left the archive where it
was. -/
theorem evolve_ok {e e' : Evolution Twister} {archive archive' : Archive}
    (h : (evolve q e archive).perform d = (.ok (e', archive'), d')) :
    archive'.folder = archive.folder ∧ ∃ t t',
      ((e.listen archiver).listen narrator).run (surroundings q.verbose e.limits.maxGenerations) t =
        (.ok (), e', t') := by
  have hfolder := Evolution.run_keeps (σ := Twister)
    (P := fun t : Audience => t.archive.folder = archive.folder)
    (s := surroundings q.verbose e.limits.maxGenerations)
    (fun name event t h => (folder_hear _ _ name event t).trans h) (fun _ h => h)
    ((e.listen archiver).listen narrator) (t := { archive, desk := d }) rfl
  rw [perform_evolve] at h
  split at h
  · next e'' t' heq =>
    cases h
    rw [heq] at hfolder
    exact ⟨hfolder, _, t', heq⟩
  · cases h

/-! ## 2. The rows to learn from -/

/-- The first part of a split has the inputs of the whole, and has rows only if the whole has. -/
theorem yields_split (d : Dataset) (fraction : Float) :
    (d.split fraction : Draws Twister (Dataset × Dataset)).Yields fun parts =>
      parts.1.names = d.names ∧ (parts.1.rows ≠ [] → d.rows ≠ []) := by
  unfold Dataset.split
  split
  · exact Draws.yields_throw _
  · split
    · exact Draws.yields_throw _
    · refine Draws.yields_bind (P := fun _ => True) (fun _ _ _ _ => trivial) fun indices _ => ?_
      refine Draws.yields_pure ⟨rfl, fun hrows => ?_⟩
      obtain ⟨row, hrow⟩ := List.exists_mem_of_ne_nil _ hrows
      obtain ⟨p, hp, -⟩ := List.mem_map.mp hrow
      exact List.ne_nil_of_mem (Dataset.mem_rows_of_mem_pairs (Dataset.mem_pairs_of_mem_pick hp))

/-- The rows to learn from are some of a table's rows, and all of them if none are held out. -/
structure LearnsFrom (q : Request) (whole train : Dataset) (test : Option Dataset) : Prop where
  names : train.names = whole.names
  rows : train.rows ≠ [] → whole.rows ≠ []
  all : ¬q.testFraction > 0.0 → train = whole ∧ test = none

theorem divide_ok {c : Configuration} {whole train : Dataset} {test : Option Dataset}
    (h : (divide q c whole).perform d = (.ok (train, test), d')) :
    LearnsFrom q whole train test ∧ d' = d := by
  unfold divide at h
  split at h
  · next hheld =>
    obtain ⟨source, d₁, hsource, h⟩ := Work.bind_ok_iff.mp h
    obtain ⟨⟨train', test'⟩, d₂, hsplit, h⟩ := Work.bind_ok_iff.mp h
    cases h
    obtain ⟨-, rfl⟩ := Prod.mk.inj hsource
    obtain ⟨hparts, rfl⟩ := Prod.mk.inj hsplit
    obtain ⟨hnames, hrows⟩ := yields_split whole (1.0 - q.testFraction) source (train, test') _
      (Prod.ext hparts rfl)
    exact ⟨⟨hnames, hrows, fun hnot => absurd hheld hnot⟩, rfl⟩
  · cases h
    exact ⟨⟨rfl, id, fun _ => ⟨rfl, rfl⟩⟩, rfl⟩

/-! ## 3. The story of a command -/

/-- Making up a configuration leaves the desk as it is. -/
theorem configure_ok {c : Configuration} (h : (configure q).perform d = (.ok c, d')) : d' = d := by
  -- What is left to do once there are settings to start from.
  have hrest : ∀ {base : Configuration} {d₁ : Desk}, (do
      Work.ofExcept (base.setAll q.changes).check
      return base.setAll q.changes : Work Configuration).perform d₁ = (.ok c, d') → d' = d₁ := by
    intro base d₁ hrest
    obtain ⟨_, d₂, hcheck, hreturn⟩ := Work.bind_ok_iff.mp hrest
    cases hreturn
    exact (Prod.mk.inj hcheck).2.symm
  unfold configure at h
  simp only at h
  split at h
  · obtain ⟨text, d₁, hread, h⟩ := Work.bind_ok_iff.mp h
    obtain ⟨base, d₂, hbase, h⟩ := Work.bind_ok_iff.mp h
    obtain ⟨-, rfl⟩ := Prod.mk.inj hread
    obtain ⟨-, rfl⟩ := Prod.mk.inj hbase
    exact hrest h
  · obtain ⟨base, d₁, hbase, h⟩ := Work.bind_ok_iff.mp h
    obtain ⟨-, rfl⟩ := Prod.mk.inj hbase
    exact hrest h

/-- Where the best tree is saved. -/
def treePath (q : Request) : String := Files.join q.out "best_tree.json"

/-- The tree that an evolution ends with. -/
def bestTree (e : Evolution Twister) : Option Tree := e.best.bind (·.tree)

/-- What is printed about the best tree, a line each. -/
def farewell (q : Request) (t : Option Tree) (fitness : Option Float) : List String :=
  ["Best fitness: " ++ Report.number fitness, "Best expression: " ++ treeText t,
   "Best tree saved to " ++ treePath q]

/-- What a command has done between two desks: from a configuration and a table to an evolution, a
run of it, and a tree in a file. -/
structure Story (q : Request) (d d' : Desk) (c : Configuration) (whole train : Dataset)
    (e₀ e : Evolution Twister) : Prop where
  configured : ((configure q).perform d).1 = .ok c
  table : d.workspace.files.table q.table = .ok whole
  learns : ∃ test, LearnsFrom q whole train test
  made : c.evolution train = .ok e₀
  ran : ∃ t t', ((e₀.listen archiver).listen narrator).run
    (surroundings q.verbose e₀.limits.maxGenerations) t = (.ok (), e, t')
  saved : d'.workspace.files.read (treePath q) = .ok (treeJson (bestTree e))
  told : ¬q.testFraction > 0.0 → ∃ before, d'.printed = Work.printed before (farewell q (bestTree e) e.bestFitness)

/-- The report is not where the best tree is. -/
theorem report_elsewhere (q : Request) {a : Archive} (h : a.folder = Files.join q.out "archive") :
    Files.joined (Files.route a.reportPath) ≠ Files.joined (Files.route (treePath q)) := by
  have hreport : a.reportPath = Files.join a.folder "summary.txt" := rfl
  rw [hreport, h, treePath]
  exact Files.joined_join_ne ⟨by decide, ⟨by decide, by decide⟩, by decide⟩
    ⟨by decide, ⟨by decide, by decide⟩, by decide⟩ (by decide)

/-- **The story of a command that is done.** -/
theorem story_of_done (h : (work q).perform d = (.ok (), d')) :
    ∃ c whole train e₀ e, Story q d d' c whole train e₀ e := by
  unfold work at h
  obtain ⟨c, d₁, hconfigure, h⟩ := Work.bind_ok_iff.mp h
  obtain rfl := (configure_ok hconfigure).symm
  obtain ⟨text, d₂, hread, h⟩ := Work.bind_ok_iff.mp h
  obtain ⟨whole, d₃, hwhole, h⟩ := Work.bind_ok_iff.mp h
  obtain ⟨htext, rfl⟩ := Prod.mk.inj hread
  obtain ⟨htable, rfl⟩ := Prod.mk.inj hwhole
  obtain ⟨⟨train, test⟩, d₄, hdivide, h⟩ := Work.bind_ok_iff.mp h
  obtain ⟨hlearns, -⟩ := divide_ok hdivide
  -- Making the folder, keeping the configuration and greeting leave no trace that matters.
  obtain ⟨_, d₅, -, h⟩ := Work.bind_ok_iff.mp h
  obtain ⟨_, d₆, -, h⟩ := Work.bind_ok_iff.mp h
  obtain ⟨_, d₇, -, h⟩ := Work.bind_ok_iff.mp h
  obtain ⟨_, d₈, -, h⟩ := Work.bind_ok_iff.mp h
  obtain ⟨e₀, d₉, hmade, h⟩ := Work.bind_ok_iff.mp h
  obtain ⟨archive, d₁₀, hcreate, h⟩ := Work.bind_ok_iff.mp h
  obtain ⟨_, d₁₁, -, h⟩ := Work.bind_ok_iff.mp h
  obtain ⟨⟨e, archive'⟩, d₁₂, hevolve, h⟩ := Work.bind_ok_iff.mp h
  obtain ⟨hfolder, hrun⟩ := evolve_ok hevolve
  obtain ⟨files, hfiles, -⟩ := Work.change_ok_iff.mp hcreate
  have helsewhere := report_elsewhere q (hfolder.trans (Archive.fresh_of_create hfiles).folder_eq)
  obtain ⟨_, d₁₃, -, h⟩ := Work.bind_ok_iff.mp h
  obtain ⟨_, d₁₄, hsave, h⟩ := Work.bind_ok_iff.mp h
  obtain ⟨_, d₁₅, hreport, h⟩ := Work.bind_ok_iff.mp h
  obtain ⟨files₁₄, hsaved, rfl⟩ := Work.write_ok_iff.mp hsave
  obtain ⟨files₁₅, hreported, rfl⟩ := Work.change_ok_iff.mp hreport
  have hkept := Archive.read_of_report hreported helsewhere (Files.read_write hsaved)
  obtain ⟨_, d₁₆, hfinished, h⟩ := Work.bind_ok_iff.mp h
  obtain ⟨_, d₁₇, hfitness, h⟩ := Work.bind_ok_iff.mp h
  obtain ⟨_, d₁₈, hexpression, h⟩ := Work.bind_ok_iff.mp h
  have hfiles₁₆ : d₁₆.workspace.files = files₁₅ :=
    (congrArg (·.workspace.files) (Prod.mk.inj hfinished).2).symm
  obtain ⟨-, rfl⟩ := Prod.mk.inj hfitness
  obtain ⟨-, rfl⟩ := Prod.mk.inj hexpression
  have hend : d'.workspace.files = files₁₅ ∧
      (test = none → ∃ before, d'.printed = Work.printed before (farewell q (bestTree e) e.bestFitness)) := by
    cases test with
    | none =>
      obtain ⟨-, rfl⟩ := Prod.mk.inj h
      refine ⟨hfiles₁₆, fun _ => ⟨d₁₆.printed, ?_⟩⟩
      simp only [Work.printed, farewell, List.foldl_cons, List.foldl_nil, bestTree, treePath]
    | some held =>
      obtain ⟨evaluator, d₁₉, hevaluator, h⟩ := Work.bind_ok_iff.mp h
      obtain ⟨fitness, d₂₀, htest, h⟩ := Work.bind_ok_iff.mp h
      obtain ⟨_, d₂₁, hsay, h⟩ := Work.bind_ok_iff.mp h
      obtain ⟨-, rfl⟩ := Prod.mk.inj hevaluator
      obtain ⟨-, rfl⟩ := Prod.mk.inj htest
      obtain ⟨-, rfl⟩ := Prod.mk.inj hsay
      obtain ⟨-, rfl⟩ := Prod.mk.inj h
      exact ⟨hfiles₁₆, nofun⟩
  refine ⟨c, whole, train, e₀, e, ?_, ?_, ⟨test, hlearns⟩, (Prod.mk.inj hmade).1, hrun, ?_, ?_⟩
  · rw [hconfigure]
  · exact (Files.table_of_text htext).trans htable
  · rw [hend.1]
    exact hkept
  · exact fun hnot => hend.2 (hlearns.all hnot).2

/-- **What a story ends with**: a tree over the inputs of the whole table, with the score that the
configured evaluator gives it over the rows learnt from. -/
theorem best_of_story {c : Configuration} {whole train : Dataset} {e₀ e : Evolution Twister}
    (h : Story q d d' c whole train e₀ e) :
    ∃ g evaluator x t fitness, c.grammar whole.names = .ok g ∧ c.evaluator train = .ok evaluator ∧
      e.best = some x ∧ Configuration.Found g evaluator x t fitness := by
  obtain ⟨g, evaluator, hmakes⟩ := Configuration.makes_of_evolution h.made
  obtain ⟨_, hlearns⟩ := h.learns
  obtain ⟨_, _, hrun⟩ := h.ran
  have hlistening : c.Makes train g evaluator ((e₀.listen archiver).listen narrator) :=
    ⟨hmakes.checked, hmakes.vocabulary, hmakes.judge, hmakes.scores, hmakes.equipped⟩
  obtain ⟨x, t, fitness, hbest, hfound⟩ := Configuration.best_of_run hlistening hrun
  exact ⟨g, evaluator, x, t, fitness, hlearns.names ▸ hmakes.vocabulary, hmakes.judge, hbest, hfound⟩

/-! ## 4. Evolutions of no generations -/

/-- There is room for what an evolution without generations writes, whatever its texts, and the table
is not in the way. -/
def HasRoom (q : Request) (f : Files) : Prop :=
  ∀ settings : String, ∃ f₁ f₂ archive f₃,
    f.makeFolder q.out = .ok f₁ ∧ f₁.write (Files.join q.out "config.json") settings = .ok f₂ ∧
    Archive.create (Files.join q.out "archive") q.saveEvery f₂ = .ok (archive, f₃) ∧
    ∀ tree : String, ∃ f₄, f₃.write (treePath q) tree = .ok f₄ ∧
      f₄.table q.table = f.table q.table

/-- An evolution of no generations tells the archive of nothing. -/
theorem evolve_of_no_generations {c : Configuration} {whole : Dataset} {n : Int}
    (hsuits : c.Suits whole) (hinputs : whole.names ≠ [])
    (hgenerations : c.whole .maxGenerations = .ok n) (hnone : n ≤ 0) :
    ∃ e₀, c.evolution whole = .ok e₀ ∧ ∀ (archive : Archive) (f : Files),
      (evolve q e₀ archive).Leads f fun result files => result.2 = archive ∧ files = f := by
  obtain ⟨e₀, hmade, hruns⟩ :=
    Configuration.run_of_no_generations hsuits hinputs hgenerations hnone
  refine ⟨e₀, hmade, fun archive f d hd => ?_⟩
  obtain ⟨e, hrun⟩ := hruns (surroundings q.verbose e₀.limits.maxGenerations)
    (e₀.listeners ++ [archiver] ++ [narrator]) { archive, desk := d } fun _ => rfl
  have hlistening : (e₀.listen archiver).listen narrator =
      { e₀ with listeners := e₀.listeners ++ [archiver] ++ [narrator] } := rfl
  exact ⟨(e, archive), d, by rw [perform_evolve, hlistening, hrun], rfl, hd⟩

/-- **An evolution of no generations is done** if the table suits the configuration and there is room
for what it writes. -/
theorem leads_of_no_generations {f : Files} {c : Configuration} {whole : Dataset} {n : Int}
    (hconfigure : (configure q).Gives f c f) (htable : f.table q.table = .ok whole)
    (hall : ¬q.testFraction > 0.0) (hsuits : c.Suits whole) (hinputs : whole.names ≠ [])
    (hgenerations : c.whole .maxGenerations = .ok n) (hnone : n ≤ 0) (hroom : HasRoom q f) :
    (work q).Leads f fun _ files => files.table q.table = .ok whole := by
  obtain ⟨text, htext, hdata⟩ := Except.bind_ok htable
  obtain ⟨e₀, hmade, hevolve⟩ := evolve_of_no_generations (q := q) hsuits hinputs hgenerations hnone
  obtain ⟨f₁, f₂, archive, f₃, hfolder, hsettings, hcreate, htree⟩ := hroom c.write
  have hdivide : (divide q c whole).Gives f (whole, none) f := by
    rw [divide, if_neg hall]
    exact Work.gives_pure _
  refine hconfigure.bind <| (Work.gives_read htext).bind <| (Work.gives_ofExcept hdata).bind <|
    hdivide.bind <| (Work.gives_makeFolder hfolder).bind <| (Work.gives_write hsettings).bind <|
    (Work.gives_say _).bind <| (Work.gives_say _).bind <| (Work.gives_ofExcept hmade).bind <|
    (Work.gives_change hcreate).bind <| Work.leads_now.bind ?_
  rintro started _ rfl
  refine (hevolve archive _).bind ?_
  rintro ⟨e, _⟩ _ ⟨rfl, rfl⟩
  refine Work.leads_now.bind ?_
  rintro ended _ rfl
  obtain ⟨f₄, hsaved, hkept⟩ := htree (treeJson (bestTree e))
  refine (Work.gives_write hsaved).bind <|
    (Work.gives_change (Archive.report_of_create hcreate)).bind <|
    (Work.gives_say _).bind <| (Work.gives_say _).bind <| (Work.gives_say _).bind ?_
  exact (Work.gives_say _).mono fun _ _ ⟨_, hfiles⟩ => hfiles ▸ hkept.trans htable

/-! ## 5. A table in a file of its own -/

/-- A request for two trees of three symbols at most, and for no generations. -/
def Request.small : Request where
  table := "data.csv"
  configFile := none
  changes := [(.maxGenerations, .int 0), (.populationSize, .int 2), (.maxTreeDepth, .int 2),
    (.maxTreeLength, .int 3)]
  testFraction := 0.0
  out := "out"
  saveEvery := 10
  verbose := false

/-- The settings of the small request. -/
def smallSettings : Configuration := Configuration.usual.setAll Request.small.changes

/-- The file of a table, and nothing else. -/
def alone (text : String) : Files := { texts := [("data.csv", text)] }

theorem hasRoom_alone (text : String) : HasRoom .small (alone text) := by
  intro settings
  refine ⟨_, _, _, _, rfl, rfl, rfl, fun tree => ⟨_, rfl, ?_⟩⟩
  exact Files.table_of_read rfl

theorem check_smallSettings : smallSettings.check = .ok () :=
  Except.eq_ok_of_toBool (by decide +kernel)

theorem configure_small (f : Files) : (configure .small).Gives f smallSettings f :=
  (Work.gives_pure _).bind <| (Work.gives_ofExcept check_smallSettings).bind <| Work.gives_pure _

/-- Whether a table alone has rows and this input. -/
def hasInput (text name : String) : Bool :=
  ((alone text).table "data.csv").toOption.any fun d => d.names = [name] && !d.rows.isEmpty

/-- **The small request is done for a table with one input**, unless the input has braces in its name
or the name of a symbol that is switched on. -/
theorem done_of_alone (text name : String) (htable : hasInput text name = true)
    (hplain : Text.Quoted.Plain name.toList)
    (hapart : name ∉ Grammar.takenNames smallSettings.functions (smallSettings.isOn .constants)) :
    ∃ whole d', (alone text).table "data.csv" = .ok whole ∧ whole.names = [name] ∧
      (work .small).perform { workspace := { files := alone text } } = (.ok (), d') ∧
      d'.workspace.files.table "data.csv" = .ok whole := by
  obtain ⟨whole, hwhole, hnames, hrows⟩ : ∃ whole, (alone text).table "data.csv" = .ok whole ∧
      whole.names = [name] ∧ whole.rows ≠ [] := by
    unfold hasInput at htable
    cases hresult : (alone text).table "data.csv" with
    | error failure => simp [hresult, Except.toOption] at htable
    | ok d =>
      simp only [hresult, Except.toOption, Option.any_some, Bool.and_eq_true, decide_eq_true_eq,
        Bool.not_eq_true'] at htable
      exact ⟨d, rfl, htable.1, List.isEmpty_eq_false_iff.mp htable.2⟩
  have hsuits : smallSettings.Suits whole := {
    typed := Configuration.typed_of_holdsTypes rfl
    checked := check_smallSettings
    rows := hrows
    plain := by rw [hnames]; exact List.forall_mem_singleton.mpr hplain
    apart := by rw [hnames]; exact List.forall_mem_singleton.mpr hapart }
  have hall : ¬Request.small.testFraction > 0.0 := by decide +kernel
  have hinputs : whole.names ≠ [] := by rw [hnames]; exact List.cons_ne_nil _ _
  have hdone := leads_of_no_generations (configure_small _) hwhole hall hsuits hinputs rfl le_rfl
    (hasRoom_alone text)
  obtain ⟨_, d', hperformed, hkept⟩ := hdone { workspace := { files := alone text } } rfl
  exact ⟨whole, d', hwhole, hnames, hperformed, hkept⟩

end Evolve
end FormulaEvolution
