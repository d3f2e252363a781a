/-
# Datasets

Rows of inputs, one target for each row, and a name for each column of inputs.  The names are
distinct, all rows have an entry for each of them, and there are as many targets as rows.

A split deals all rows out to two datasets that are both not empty, in an order drawn at random.
-/
import FormulaEvolution.Grid
import FormulaEvolution.Number.Order
import FormulaEvolution.Random.Source

namespace FormulaEvolution

/-- Inputs, targets and the names of the columns. -/
structure Dataset where
  names : List String
  rows : List (List Float)
  targets : List Float
  width : ∀ row ∈ rows, row.length = names.length
  count : rows.length = targets.length
  distinct : names.Nodup

namespace Dataset

/-! ## 1. Making datasets -/

/-- The names of columns that have none: `x` and the index. -/
def usualNames (columns : Nat) : List String := (List.range columns).map fun i => "x" ++ toString i

/-- Make a dataset of rows that are as wide as there are names. -/
def ofRows (names : List String) (rows : List (List Float)) (targets : List Float) :
    Except Failure Dataset :=
  if distinct : names.Nodup then
    if h : (∀ row ∈ rows, row.length = names.length) ∧ rows.length = targets.length then
      .ok { names, rows, targets, width := h.1, count := h.2, distinct }
    else .error (.shape (.rowCounts rows.length targets.length))
  else .error (.shape (.repeatedNames names))

/-- Make a dataset of grids: inputs with two dimensions, or one for a single column, and targets
with one. -/
def ofGrids (inputs targets : Grid) (names? : Option (List String)) : Except Failure Dataset :=
  let inputs := inputs.upright
  match inputs.shape, targets.shape with
  | [rows, columns], [count] => do
    if rows ≠ count then throw (.shape (.rowCounts rows count))
    let names := names?.getD (usualNames columns)
    if names.length ≠ columns then throw (.shape (.nameCount names.length columns))
    ofRows names (Grid.cut columns rows inputs.entries) targets.entries
  | shape, other => throw (.shape (.bothShapes (Grid.shapeText shape) (Grid.shapeText other)))

/-- Make a dataset of values. -/
def ofJson (inputs targets : Json) (names? : Option (List String)) : Except Failure Dataset := do
  let inputs ← Grid.ofJson inputs
  let targets ← Grid.ofJson targets
  ofGrids inputs targets names?

/-- The number of rows. -/
def size (d : Dataset) : Nat := d.targets.length

/-- How a dataset is shown. -/
def describe (d : Dataset) : String :=
  "Dataset(rows=" ++ toString d.size ++ ", variables=" ++ Text.Quoted.list d.names ++ ")"

/-! ## 2. Splitting -/

/-- The rows with their targets. -/
def pairs (d : Dataset) : List (List Float × Float) := d.rows.zip d.targets

theorem mem_rows_of_mem_pairs {d : Dataset} {p : List Float × Float} (h : p ∈ d.pairs) :
    p.1 ∈ d.rows := (List.of_mem_zip h).1

/-- Some of the pairs, by their indices; an index that there is none for is left out. -/
def pick (d : Dataset) (indices : List Nat) : List (List Float × Float) :=
  indices.filterMap (d.pairs[·]?)

/-- What is picked is among the pairs. -/
theorem mem_pairs_of_mem_pick {d : Dataset} {indices : List Nat} {p : List Float × Float}
    (h : p ∈ d.pick indices) : p ∈ d.pairs := by
  obtain ⟨i, _, hi⟩ := List.mem_filterMap.mp h
  exact List.mem_of_getElem? hi

/-- The dataset of some of the rows and their targets. -/
def select (d : Dataset) (indices : List Nat) : Dataset where
  names := d.names
  rows := (d.pick indices).map (·.1)
  targets := (d.pick indices).map (·.2)
  width := by
    intro row hrow
    obtain ⟨p, hp, rfl⟩ := List.mem_map.mp hrow
    exact d.width _ (mem_rows_of_mem_pairs (mem_pairs_of_mem_pick hp))
  count := by simp
  distinct := d.distinct

/-- Exchange two members of a list. -/
def exchange {α : Type} (xs : List α) (i j : Nat) : List α :=
  match xs[i]?, xs[j]? with
  | some x, some y => (xs.set i y).set j x
  | _, _ => xs

section
variable {σ α : Type} [RandomSource σ]

/-- Exchange each member, from the last one down to the second, with one that is drawn from those
up to it. -/
def shuffleDown : Nat → List α → Draws σ (List α)
  | 0, xs => return xs
  | i + 1, xs => do
    let j ← Draws.below (i + 2) (by omega)
    shuffleDown i (exchange xs (i + 1) j.val)

/-- Put a list into an order drawn at random. -/
def shuffle (xs : List α) : Draws σ (List α) := shuffleDown (xs.length - 1) xs

end

/-- How many of `n` rows the first part of a split gets: the fraction, but neither none nor all. -/
def cutSize (n : Nat) (fraction : Float) : Nat :=
  min (max 1 (Number.nearest (n.toFloat * fraction)).toNat) (n - 1)

section
variable {σ : Type} [RandomSource σ]

/-- Deal the rows out to two datasets. -/
def split (d : Dataset) (fraction : Float) : Draws σ (Dataset × Dataset) :=
  if !(0.0 < fraction && fraction < 1.0) then
    throw (.invalid (.splitFraction (Number.exactText fraction)))
  else if d.size < 2 then throw (.invalid .splitRows)
  else do
    let indices ← shuffle (List.range d.size)
    let cut := cutSize d.size fraction
    return (d.select (indices.take cut), d.select (indices.drop cut))

end

/-! ## 3. Facts -/

/-- Neither part of a split of two rows or more is left without a row. -/
theorem cutSize_bounds {n : Nat} (h : 2 ≤ n) (fraction : Float) :
    1 ≤ cutSize n fraction ∧ cutSize n fraction ≤ n - 1 := by
  unfold cutSize
  omega

end Dataset
end FormulaEvolution
