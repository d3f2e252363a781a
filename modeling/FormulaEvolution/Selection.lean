/-
# Selection

Choosing at random with a preference: a wheel for symbols, on which each has a share in proportion
to its frequency, and a tournament for candidates, in which the fittest of a few that are drawn
with replacement wins and the first of equals is kept.
-/
import FormulaEvolution.Random.Source
import FormulaEvolution.Score
import FormulaEvolution.Symbol.Basic

namespace FormulaEvolution

variable {σ : Type} [RandomSource σ]

/-! ## 1. The wheel -/

/-- The first index at which the running sum of the weights passes the mark, the sum before them
being `start`. -/
def passIndex? {α : Type} [Add α] [LT α] [DecidableLT α] (mark : α) :
    α → List α → Option Nat
  | _, [] => none
  | start, w :: ws =>
    if mark < start + w then some 0 else (passIndex? mark (start + w) ws).map (· + 1)

/-- The sum of weights, from the left. -/
def weightSum {α : Type} [Add α] [Zero α] (ws : List α) : α := ws.foldl (· + ·) 0

/-- Where a wheel with these weights stops for a draw between zero and one; the last index if the
draw passes no weight. -/
def wheelIndex {α : Type} [Add α] [Mul α] [Zero α] [LT α] [DecidableLT α] (ws : List α) (u : α) :
    Nat :=
  (passIndex? (u * weightSum ws) 0 ws).getD (ws.length - 1)

theorem passIndex?_lt {α : Type} [Add α] [LT α] [DecidableLT α] {mark : α} :
    ∀ {start : α} {ws : List α} {i : Nat}, passIndex? mark start ws = some i → i < ws.length
  | start, [], i, h => by simp [passIndex?] at h
  | start, w :: ws, i, h => by
    simp only [passIndex?] at h
    split at h
    · simp only [Option.some.injEq] at h
      subst h
      simp
    · simp only [Option.map_eq_some_iff] at h
      obtain ⟨j, hj, rfl⟩ := h
      have := passIndex?_lt hj
      simp
      omega

/-- A wheel with weights stops at one of them. -/
theorem wheelIndex_lt {α : Type} [Add α] [Mul α] [Zero α] [LT α] [DecidableLT α] {ws : List α}
    (h : ws ≠ []) (u : α) : wheelIndex ws u < ws.length := by
  have hpos : 0 < ws.length := List.length_pos_iff.mpr h
  unfold wheelIndex
  cases hp : passIndex? (u * weightSum ws) 0 ws with
  | none => simp only [Option.getD_none]; omega
  | some i => simpa using passIndex?_lt hp

/-- Choose a symbol by frequency.  A single one is taken without a draw; if the frequencies do not
sum up to more than zero, all are equally likely. -/
def chooseSymbol (symbols : List Symbol) : Draws σ Symbol :=
  match symbols with
  | [] => throw (.invalid .noSymbolsToChoose)
  | [s] => return s
  | s :: rest =>
    let weights := symbols.map (·.frequency)
    if weightSum weights <= 0.0 then Draws.choose symbols
    else do
      let u ← Draws.unit
      return symbols.getD (wheelIndex weights u) (rest.getLastD s)

/-! ## 2. The tournament -/

/-- Draw `rounds` more members; each replaces the best so far if its fitness beats it. -/
def contest {α : Type} (fitness : α → Except Failure (Option Float)) (members : List α) :
    Nat → α × Option Float → Draws σ α
  | 0, (best, _) => return best
  | rounds + 1, (best, score) => do
    let candidate ← Draws.choose members
    let other ← Draws.ofExcept (fitness candidate)
    contest fitness members rounds (if beats other score then (candidate, other) else (best, score))

/-- The winner of a tournament of `size` members, and of one at least. -/
def tournament {α : Type} (size : Int) (fitness : α → Except Failure (Option Float))
    (members : List α) : Draws σ α :=
  if members.isEmpty then throw (.invalid .emptyPopulation)
  else do
    let first ← Draws.choose members
    let score ← Draws.ofExcept (fitness first)
    contest fitness members (max 1 size - 1).toNat (first, score)

/-- The winner of a tournament from what a caller has: a source, which may be missing. -/
def requestWinner {α : Type} (source? : Option σ) (size : Int)
    (fitness : α → Except Failure (Option Float)) (members : List α) :
    Except Failure α × Option σ :=
  match source? with
  | some s =>
    let (result, s) := (tournament size fitness members).runFrom s
    (result, some s)
  | none => (.error (.invalid (if members.isEmpty then .emptyPopulation else .noSource)), none)

end FormulaEvolution
