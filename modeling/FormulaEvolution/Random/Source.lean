/-
# Random sources

A random source gives, one after the other, whole numbers below a bound and doubles between zero
and one.  Everything random in the library asks a source for these two and for nothing else, so a
statement about an operation that holds for every source holds for every stream of draws.

`Draws` is the setting of a random operation: it may fail, and what it has drawn stays drawn.
-/
import FormulaEvolution.Failure

namespace FormulaEvolution

/-- A source of random draws with states in `σ`. -/
class RandomSource (σ : Type) where
  /-- A whole number below a positive bound. -/
  below : (n : Nat) → 0 < n → σ → Fin n × σ
  /-- A double between zero and one, one excluded. -/
  unit : σ → Float × σ

/-- A computation that draws from a source and may fail. -/
abbrev Draws (σ : Type) : Type → Type := ExceptT Failure (StateM σ)

namespace Draws

variable {σ : Type} [RandomSource σ] {α : Type}

/-! ## 1. Draws -/

/-- Draw a whole number below a positive bound. -/
def below (n : Nat) (h : 0 < n) : Draws σ (Fin n) :=
  fun s => let (i, s) := RandomSource.below n h s; (.ok i, s)

/-- Draw a double between zero and one. -/
def unit : Draws σ Float :=
  fun s => let (u, s) := RandomSource.unit s; (.ok u, s)

/-- Draw a whole number from zero up to a bound, the bound excluded. -/
def int (bound : Int) : Draws σ Nat :=
  if h : 0 < bound.toNat then do
    let i ← below bound.toNat h
    return i.val
  else throw (.invalid .emptyRange)

/-- Draw a whole number from `low` up to `high`, the latter excluded. -/
def span (low high : Int) : Draws σ Int :=
  if h : 0 < (high - low).toNat then do
    let i ← below (high - low).toNat h
    return low + i.val
  else throw (.invalid (.emptySpan low high))

/-- Draw a double between two bounds. -/
def uniform (low high : Float) : Draws σ Float := do
  let u ← unit
  return low + (high - low) * u

/-- Draw one member of a list. -/
def choose (xs : List α) : Draws σ α :=
  if h : 0 < xs.length then do
    let i ← below xs.length h
    return xs.get i
  else throw (.invalid .emptyRange)

/-- Fail as a computation without draws fails. -/
def ofExcept (result : Except Failure α) : Draws σ α := fun s => (result, s)

/-- Draw from a source: the result and the source afterwards. -/
def runFrom (draws : Draws σ α) (s : σ) : Except Failure α × σ := draws s

/-! ## 2. What draws do -/

omit [RandomSource σ] in
@[simp] theorem runFrom_pure (a : α) (s : σ) :
    (pure a : Draws σ α).runFrom s = (.ok a, s) := rfl

omit [RandomSource σ] in
@[simp] theorem runFrom_throw (failure : Failure) (s : σ) :
    (throw failure : Draws σ α).runFrom s = (.error failure, s) := rfl

omit [RandomSource σ] in
@[simp] theorem runFrom_ofExcept (result : Except Failure α) (s : σ) :
    (ofExcept result : Draws σ α).runFrom s = (result, s) := rfl

@[simp] theorem runFrom_below (n : Nat) (h : 0 < n) (s : σ) :
    (below n h : Draws σ (Fin n)).runFrom s =
      (.ok (RandomSource.below n h s).1, (RandomSource.below n h s).2) := rfl

@[simp] theorem runFrom_unit (s : σ) :
    (unit : Draws σ Float).runFrom s =
      (.ok (RandomSource.unit s).1, (RandomSource.unit s).2) := rfl

omit [RandomSource σ] in
/-- One computation after another: the second starts where the first has left the source, and is
left out when the first fails. -/
theorem runFrom_bind {β : Type} (first : Draws σ α) (next : α → Draws σ β) (s : σ) :
    (first >>= next).runFrom s =
      match first.runFrom s with
      | (.ok a, s) => (next a).runFrom s
      | (.error failure, s) => (.error failure, s) := by
  change (ExceptT.bind first next) s = _
  simp only [ExceptT.bind, ExceptT.mk, bind, StateT.bind, runFrom]
  cases h : first s with
  | mk result s' => cases result <;> rfl

/-- A draw below a bound stays below it, and never fails when the bound is positive. -/
theorem runFrom_int {bound : Int} (h : 0 < bound) (s : σ) :
    ∃ (i : Nat) (s' : σ), (i : Int) < bound ∧ (int bound : Draws σ Nat).runFrom s = (.ok i, s') := by
  have hn : 0 < bound.toNat := by omega
  refine ⟨(RandomSource.below bound.toNat hn s).1.val, (RandomSource.below bound.toNat hn s).2,
    ?_, ?_⟩
  · have := (RandomSource.below bound.toNat hn s).1.isLt
    omega
  · simp only [int, dif_pos hn, runFrom_bind, runFrom_below, runFrom_pure]

/-- A member drawn from a list is a member of it. -/
theorem runFrom_choose {xs : List α} (h : xs ≠ []) (s : σ) :
    ∃ (a : α) (s' : σ), a ∈ xs ∧ (choose xs : Draws σ α).runFrom s = (.ok a, s') := by
  have hn : 0 < xs.length := List.length_pos_iff.mpr h
  refine ⟨xs.get (RandomSource.below xs.length hn s).1, (RandomSource.below xs.length hn s).2,
    List.get_mem xs _, ?_⟩
  simp only [choose, dif_pos hn, runFrom_bind, runFrom_below, runFrom_pure]

end Draws
end FormulaEvolution
