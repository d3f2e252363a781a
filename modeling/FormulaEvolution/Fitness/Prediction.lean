/-
# Predictions

One number for each row.  A tree is evaluated over whole columns, all rows at once or in chunks; the
columns are bound in a dictionary rented from a pool.

A strict evaluator fails with the first chunk that fails.  A lenient one evaluates the rows of a
failing chunk one by one, and predicts zero for a row that fails or has no finite value.
-/
import FormulaEvolution.Compilation
import FormulaEvolution.Fitness.Basic
import FormulaEvolution.ScratchPool

namespace FormulaEvolution

/-- Predicting rents dictionaries. -/
abbrev Renting (α : Type) := ScratchPool Value → α × ScratchPool Value

namespace Evaluator

/-! ## 1. One chunk -/

/-- What is evaluated for a tree: what it is compiled to, or the tree itself. -/
def expression (e : Evaluator) (t : Option Tree) : Except Failure Expression :=
  if e.settings.compiled then compile t else .ok (.interpreted t)

/-- Evaluate some rows at once. -/
def predictStrict (e : Evaluator) (x : Expression) (rows : List (List Float)) :
    Renting (Except Failure (List Float)) := fun pool =>
  pool.within fun d =>
    let b := d.bindAll e.names (e.columnsOf rows)
    (x.evaluateColumns b rows.length, b)

/-- Evaluate one row after the other, in one dictionary.  A failure that is to be forgiven counts
as zero. -/
def predictRows (e : Evaluator) (x : Expression) :
    List (List Float) → Bindings → Except Failure (List Float) × Bindings
  | [], b => (.ok [], b)
  | row :: rows, b =>
    let b := b.bindAll e.names (row.map .number)
    let first : Except Failure Float :=
      match x.evaluate b with
      | .ok y => .ok y
      | .error failure => if failure.isLenient then .ok 0.0 else .error failure
    match first with
    | .ok y =>
      let (rest, b) := predictRows e x rows b
      (rest.map (y :: ·), b)
    | .error failure => (.error failure, b)

/-- A prediction that is not finite counts as zero. -/
def settle (y : Float) : Float := if Number.isFinite y then y else 0.0

/-- Evaluate some rows at once, or one by one if that fails. -/
def predictLenient (e : Evaluator) (x : Expression) (rows : List (List Float)) :
    Renting (Except Failure (List Float)) := fun pool =>
  let (strict, pool) := e.predictStrict x rows pool
  match strict with
  | .ok ys => (.ok (ys.map settle), pool)
  | .error failure =>
    if failure.isLenient then
      let (ys, pool) := pool.within fun d => e.predictRows x rows d
      (ys.map fun ys => ys.map settle, pool)
    else (.error failure, pool)

/-- Evaluate one chunk. -/
def predictChunk (e : Evaluator) (x : Expression) (rows : List (List Float)) :
    Renting (Except Failure (List Float)) :=
  if e.settings.lenient then e.predictLenient x rows else e.predictStrict x rows

/-! ## 2. All chunks -/

/-- Cut rows into chunks of a size; the last one may be smaller. -/
def chunksWithin (size : Nat) : Nat → List (List Float) → List (List (List Float))
  | 0, _ => []
  | bound + 1, rows =>
    if rows.isEmpty then [] else rows.take size :: chunksWithin size bound (rows.drop size)

/-- The chunks of an evaluator. -/
def chunks (e : Evaluator) : List (List (List Float)) :=
  if e.isChunked then chunksWithin e.chunkSize e.size e.rows else [e.rows]

/-- Evaluate chunk after chunk; all are evaluated, and the first failure counts. -/
def predictChunks (e : Evaluator) (x : Expression) :
    List (List (List Float)) → Renting (Except Failure (List Float))
  | [], pool => (.ok [], pool)
  | chunk :: chunks, pool =>
    let (first, pool) := e.predictChunk x chunk pool
    let (rest, pool) := predictChunks e x chunks pool
    (do
      let ys ← first
      let zs ← rest
      return ys ++ zs, pool)

/-- Predict a number for each row. -/
def predict (e : Evaluator) (t : Option Tree) : Renting (Except Failure (List Float)) := fun pool =>
  match e.expression t with
  | .ok x => e.predictChunks x e.chunks pool
  | .error failure => (.error failure, pool)

end Evaluator
end FormulaEvolution
