/-
# Reports

The story of a run from its log: its times, how good its first and its last generation are, how
large their trees are, a sample of the generations in between, and the best expression at the end.

The part about tree sizes is there if the last generation has a census, and then the first one must
have one, too.
-/
import FormulaEvolution.Archive.Entry

namespace FormulaEvolution
namespace Report

/-! ## 1. Pieces -/

/-- A number in a report. -/
def number : Option Float → String
  | some x => Number.briefText x
  | none => "n/a"

/-- A text with blanks in front, so that it has a number of places. -/
def padLeft (places : Nat) (text : String) : String :=
  String.ofList (List.replicate (places - text.length) ' ') ++ text

/-- The line between the parts of a report. -/
def rule : String := String.ofList (List.replicate 40 '-')

/-- The line around the title of a report. -/
def doubleRule : String := String.ofList (List.replicate 60 '=')

/-- The heading of a part. -/
def heading (title : String) : List String := ["\n" ++ rule, title, rule]

/-- How many generations are shown at most. -/
def sampleSize : Nat := 10

/-- Every `stride`-th member, the first one included. -/
def everyNth {α : Type} (stride : Nat) (xs : List α) : List α :=
  (xs.zipIdx.filter fun (_, i) => i % stride = 0).map (·.1)

/-- Generations all over a log, the later ones if there are too many. -/
def sample (log : List LogEntry) : List LogEntry :=
  let spread := everyNth (max 1 (log.length / sampleSize)) log
  spread.drop (spread.length - sampleSize)

/-! ## 2. Parts -/

/-- The title and the times. -/
def opening (log : List LogEntry) (first last : LogEntry) : List String :=
  [doubleRule, "EVOLUTION SUMMARY REPORT", doubleRule, "Generations: " ++ toString log.length,
   "Start time: " ++ first.moment, "End time: " ++ last.moment,
   "Duration: " ++ Number.fixedText 1 (last.timestamp - first.timestamp) ++ " seconds"] ++
  match first.census.bind (·.stats) with
  | some stats => ["Population size: " ++ toString stats.size]
  | none => []

/-- How good the generations at both ends are. -/
def fitnessPart (first last : LogEntry) : List String :=
  heading "FITNESS EVOLUTION" ++
  ["Initial best fitness: " ++ number first.best, "Final best fitness: " ++ number last.best,
   "Initial avg fitness: " ++ number first.average, "Final avg fitness: " ++ number last.average]

/-- The mean of a summary in a census. -/
def meanOf (part : PopulationStats → Option Summary) (census : Census) : Option Float :=
  (census.stats.bind part).map (·.mean)

/-- How large the trees at both ends are. -/
def complexityPart (first last : Census) : List String :=
  heading "COMPLEXITY EVOLUTION" ++
  ["Initial avg length: " ++ number (meanOf (·.length) first),
   "Final avg length: " ++ number (meanOf (·.length) last),
   "Initial avg depth: " ++ number (meanOf (·.depth) first),
   "Final avg depth: " ++ number (meanOf (·.depth) last),
   "Final structural diversity: " ++ Number.fixedText 3 last.diversity.share]

/-- The line of a generation. -/
def generationLine (e : LogEntry) : String :=
  "Gen " ++ padLeft 3 (toString e.generation) ++ ": Best=" ++ number e.best ++ ", Avg=" ++
    number e.average

/-- The sample of generations and the best expression. -/
def closing (log : List LogEntry) (last : LogEntry) : List String :=
  heading "BEST BY GENERATION" ++ (sample log).map generationLine ++
  heading "FINAL BEST EXPRESSION" ++ [last.expression, "Length: " ++ toString last.length]

/-! ## 3. The report -/

/-- The report of a log that starts with `first` and ends with `last`. -/
def body (log : List LogEntry) (first last : LogEntry) : Except Failure String := do
  let complexity ← match first.census, last.census with
    | _, none => pure []
    | some a, some b => pure (complexityPart a b)
    | none, some _ => throw (.absentKey "stats")
  return "\n".intercalate
    (opening log first last ++ fitnessPart first last ++ complexity ++ closing log last)

/-- The report of a log, if it has entries. -/
def ofLog? (log : List LogEntry) : Option (Except Failure String) :=
  match log, log.getLast? with
  | first :: _, some last => some (body log first last)
  | _, _ => none

/-- There is a report unless the last generation has a census and the first one has none. -/
theorem body_ok {log : List LogEntry} {first last : LogEntry}
    (h : last.census.isSome → first.census.isSome) : ∃ text, body log first last = .ok text := by
  unfold body
  cases hl : last.census with
  | none => exact ⟨_, rfl⟩
  | some b =>
    cases hf : first.census with
    | none => simp [hl, hf] at h
    | some a => exact ⟨_, rfl⟩

end Report
end FormulaEvolution
