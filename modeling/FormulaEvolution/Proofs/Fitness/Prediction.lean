/-
# Predictions are those of the single rows

A strict evaluator predicts for each row what the tree evaluates to on that row, and fails exactly if
the tree fails on some row (`Evaluator.predict_rowByRow`).  It makes no difference whether the tree
is compiled, whether the rows are cut into chunks, how many there are, or what the pool holds.
-/
import FormulaEvolution.Fitness.Prediction
import FormulaEvolution.Proofs.Fitness.Columns

namespace FormulaEvolution

/-! ## 1. Columns in a dictionary -/

section Binding

variable {ρ : Type} {rows : List ρ} {whole : Bindings} {single : ρ → Bindings}

/-- Binding a name to a column, and for each row to its entry. -/
theorem bindsRows_bind (h : Tree.BindsRows rows whole single) (name : String) (entry : ρ → Float) :
    Tree.BindsRows rows (whole.bind name (.column (rows.map entry)))
      fun row => (single row).bind name (.number (entry row)) := by
  intro other
  simp only [Dictionary.value?_bind]
  by_cases hname : name = other
  · refine .inr ⟨entry, by rw [if_pos hname], fun row _ => by rw [if_pos hname]⟩
  · simpa only [if_neg hname] using h other

theorem bindsRows_congr {single' : ρ → Bindings} (h : ∀ row ∈ rows, single row = single' row)
    (hbinds : Tree.BindsRows rows whole single) : Tree.BindsRows rows whole single' := by
  intro name
  rcases hbinds name with ⟨hwhole, hsingle⟩ | ⟨entry, hwhole, hsingle⟩
  · exact .inl ⟨hwhole, fun row hrow => by rw [← h row hrow, hsingle row hrow]⟩
  · exact .inr ⟨entry, hwhole, fun row hrow => by rw [← h row hrow, hsingle row hrow]⟩

end Binding

/-- Binding names to the columns of some rows from one column on, and for each row to its entries
there. -/
theorem bindsRows_bindAll {rows : List (List Float)} (names : List String) :
    ∀ (first : Nat) {whole : Bindings} {single : List Float → Bindings},
      (∀ row ∈ rows, row.length = first + names.length) → Tree.BindsRows rows whole single →
        Tree.BindsRows rows
          (whole.bindAll names ((List.range' first names.length).map fun i =>
            .column (Evaluator.columnOf rows i)))
          fun row => (single row).bindAll names ((row.drop first).map .number) := by
  induction names with
  | nil =>
    intro first whole single _ h
    exact h
  | cons name names ih =>
    intro first whole single hwidth h
    have hrest := ih (first + 1)
      (fun row hrow => by rw [hwidth row hrow, List.length_cons]; omega)
      (bindsRows_bind h name fun row => row.getD first Number.notANumber)
    -- A row has its entry of the first column in front of the others.
    have hsplit : ∀ row ∈ rows,
        ((single row).bind name (.number (row.getD first Number.notANumber))).bindAll names
          ((row.drop (first + 1)).map .number) =
        (single row).bindAll (name :: names) ((row.drop first).map .number) := by
      intro row hrow
      have hlt : first < row.length := by
        rw [hwidth row hrow, List.length_cons]
        omega
      have hentry : row.getD first Number.notANumber = row[first] := by
        simp [List.getD_eq_getElem?_getD, hlt]
      rw [List.drop_eq_getElem_cons hlt, hentry]
      rfl
    exact bindsRows_congr hsplit hrest

namespace Evaluator

/-- The bindings of one row: its entries under the names of their columns. -/
def bindRow (e : Evaluator) (row : List Float) : Bindings :=
  Dictionary.bindAll [] e.names (row.map .number)

/-- The columns of some rows, and the entries of each of them. -/
theorem bindsRows_columnsOf (e : Evaluator) {rows : List (List Float)}
    (hrows : ∀ row ∈ rows, row ∈ e.rows) :
    Tree.BindsRows rows (Dictionary.bindAll [] e.names (e.columnsOf rows)) e.bindRow := by
  have hnone : Tree.BindsRows rows [] fun _ => [] := fun _ => .inl ⟨rfl, fun _ _ => rfl⟩
  have hall := bindsRows_bindAll e.names 0
    (fun row hrow => by rw [Nat.zero_add, e.width row (hrows row hrow)]) hnone
  rwa [← List.range_eq_range'] at hall

/-! ## 2. One expression -/

section Expressions

variable {x : Expression} {t : Tree}

/-- An expression that runs as a tree succeeds and fails with it. -/
theorem evaluateColumns_outcome (hx : x.RunsAs t) (b : Bindings) (count : Nat) :
    (∃ v, t.value b = .ok v ∧ x.evaluateColumns b count = .ok (v.toColumn count)) ∨
      (∃ failure, t.value b = .error failure) ∧
        ∃ failure, x.evaluateColumns b count = .error failure := by
  obtain ⟨result, -, hcolumns, hexplains⟩ := hx.outcome b
  rw [hcolumns]
  generalize t.value b = tree at hexplains
  cases hexplains with
  | value v => exact .inl ⟨v, rfl, rfl⟩
  | failure _ => exact .inr ⟨⟨_, rfl⟩, _, rfl⟩

end Expressions

/-! ## 3. One chunk -/

section Chunks

variable {e : Evaluator} {x : Expression} {t : Tree}

/-- What evaluating a tree on one row gives is its value there, which is a number. -/
theorem evaluate_eq {b : Bindings} {y : Float} (h : t.value b = .ok (.number y)) :
    evaluate (some t) b = .ok y := by
  simp [evaluate, expectRoot, h, bind, Except.bind, Value.toNumber]

theorem evaluate_fails {b : Bindings} {failure : Failure} (h : t.value b = .error failure) :
    evaluate (some t) b = .error failure := by
  simp [evaluate, expectRoot, h, bind, Except.bind]

/-- Evaluating some rows at once binds their columns, whatever the pool holds. -/
theorem predictStrict_result (e : Evaluator) (x : Expression) (rows : List (List Float))
    (pool : ScratchPool Value) : (e.predictStrict x rows pool).1 =
      x.evaluateColumns (Dictionary.bindAll [] e.names (e.columnsOf rows)) rows.length := by
  rw [predictStrict, ScratchPool.within_result]

/-- The outcomes of predicting some rows: a number for each row, that of the tree on it, or a
failure where the tree fails on some row. -/
abbrev Predicts (e : Evaluator) (t : Tree) (rows : List (List Float))
    (result : Except Failure (List Float)) : Prop :=
  RowByRow rows (fun _ => True) id result fun row => evaluate (some t) (e.bindRow row)

/-- **Rows that are evaluated at once are predicted row by row.** -/
theorem predictStrict_rowByRow (hx : x.RunsAs t) (ht : ∀ u ∈ t.preorder, u.Ready Symbol.Scalar)
    {rows : List (List Float)} (hne : rows ≠ []) (hrows : ∀ row ∈ rows, row ∈ e.rows)
    (pool : ScratchPool Value) : e.Predicts t rows (e.predictStrict x rows pool).1 := by
  rw [predictStrict_result]
  have hvalue := Tree.value_rowByRow hne (e.bindsRows_columnsOf hrows) ht
  rcases evaluateColumns_outcome hx (Dictionary.bindAll [] e.names (e.columnsOf rows))
    rows.length with ⟨v, hv, hcolumns⟩ | ⟨⟨failure, hv⟩, failure', hcolumns⟩
  · rw [Tree.ValueRowByRow, hv] at hvalue
    rw [hcolumns]
    cases hvalue with
    | value hspans hsplit =>
      refine .value trivial ?_
      rw [id, hspans.toColumn]
      exact (List.forall₂_map_right_iff.mp hsplit).imp fun row y hy => evaluate_eq hy
  · rw [Tree.ValueRowByRow, hv] at hvalue
    rw [hcolumns]
    cases hvalue with
    | failure hrow hsingle => exact .failure hrow (evaluate_fails hsingle)

/-- **A chunk is predicted row by row.** -/
theorem predictChunk_rowByRow (hstrict : e.settings.lenient = false) (hx : x.RunsAs t)
    (ht : ∀ u ∈ t.preorder, u.Ready Symbol.Scalar) {rows : List (List Float)} (hne : rows ≠ [])
    (hrows : ∀ row ∈ rows, row ∈ e.rows) (pool : ScratchPool Value) :
    e.Predicts t rows (e.predictChunk x rows pool).1 := by
  have hchunk : e.predictChunk x rows pool = e.predictStrict x rows pool := by
    simp only [predictChunk, hstrict, if_false, Bool.false_eq_true]
  rw [hchunk]
  exact predictStrict_rowByRow hx ht hne hrows pool

/-! ## 4. All chunks -/

/-- Chunks are predicted one after the other, and their rows together. -/
theorem predictChunks_rowByRow (hstrict : e.settings.lenient = false) (hx : x.RunsAs t)
    (ht : ∀ u ∈ t.preorder, u.Ready Symbol.Scalar) :
    ∀ {chunks : List (List (List Float))}, (∀ chunk ∈ chunks, chunk ≠ []) →
      (∀ row ∈ chunks.flatten, row ∈ e.rows) → ∀ pool : ScratchPool Value,
        e.Predicts t chunks.flatten (e.predictChunks x chunks pool).1
  | [], _, _, pool => .value trivial .nil
  | chunk :: chunks, hne, hrows, pool => by
    have hfirst := predictChunk_rowByRow hstrict hx ht (hne chunk List.mem_cons_self)
      (fun row hrow => hrows row (List.mem_append_left _ hrow)) pool
    have hrest := predictChunks_rowByRow hstrict hx ht
      (fun c hc => hne c (List.mem_cons_of_mem chunk hc))
      (fun row hrow => hrows row (List.mem_append_right _ hrow)) (e.predictChunk x chunk pool).2
    have hboth : (e.predictChunks x (chunk :: chunks) pool).1 =
        (do
          let ys ← (e.predictChunk x chunk pool).1
          let zs ← (e.predictChunks x chunks (e.predictChunk x chunk pool).2).1
          return ys ++ zs) := rfl
    rw [hboth, List.flatten_cons]
    generalize (e.predictChunk x chunk pool).1 = first at hfirst
    generalize (e.predictChunks x chunks (e.predictChunk x chunk pool).2).1 = rest at hrest
    cases hfirst with
    | failure hrow hsingle => exact .failure (List.mem_append_left _ hrow) hsingle
    | value _ hsplit =>
      cases hrest with
      | failure hrow hsingle => exact .failure (List.mem_append_right _ hrow) hsingle
      | value _ hsplit' => exact .value trivial (List.rel_append hsplit hsplit')

/-- The chunks of rows are parts of them, put together in order. -/
theorem chunksWithin_flatten {size : Nat} (hsize : 0 < size) : ∀ {bound : Nat}
    {rows : List (List Float)}, rows.length ≤ bound →
      (chunksWithin size bound rows).flatten = rows ∧
        ∀ chunk ∈ chunksWithin size bound rows, chunk ≠ []
  | 0, rows, h => by
    obtain rfl : rows = [] := List.length_eq_zero_iff.mp (Nat.le_zero.mp h)
    exact ⟨rfl, by simp [chunksWithin]⟩
  | bound + 1, [], _ => by simp [chunksWithin]
  | bound + 1, row :: rows, h => by
    have hdrop : ((row :: rows).drop size).length ≤ bound := by
      rw [List.length_drop]
      omega
    obtain ⟨hflatten, hne⟩ := chunksWithin_flatten hsize hdrop
    rw [chunksWithin, List.isEmpty_cons, if_neg (by decide)]
    constructor
    · rw [List.flatten_cons, hflatten, List.take_append_drop]
    · intro chunk hchunk
      rcases List.mem_cons.mp hchunk with rfl | hchunk
      · obtain ⟨k, rfl⟩ : ∃ k, size = k + 1 := ⟨size - 1, by omega⟩
        simp
      · exact hne chunk hchunk

theorem chunks_flatten (e : Evaluator) :
    e.chunks.flatten = e.rows ∧ ∀ chunk ∈ e.chunks, chunk ≠ [] := by
  unfold chunks
  split
  · exact chunksWithin_flatten e.chunkSize_pos (Nat.le_refl _)
  · exact ⟨by simp, by simpa using e.inhabited⟩

end Chunks

/-! ## 5. Predictions -/

/-- What is evaluated for a tree runs as the tree, compiled or not. -/
theorem expression_runsAs {Quality : Symbol → Prop} {t : Tree} (e : Evaluator)
    (ht : ∀ u ∈ t.preorder, u.Ready Quality) : ∃ x, e.expression (some t) = .ok x ∧ x.RunsAs t := by
  unfold expression
  split
  · exact compile_runsAs ht
  · exact ⟨.interpreted (some t), rfl, rfl⟩

/-- **A strict evaluator predicts row by row.** -/
theorem predict_rowByRow {e : Evaluator} {t : Tree} (hstrict : e.settings.lenient = false)
    (ht : ∀ u ∈ t.preorder, u.Ready Symbol.Scalar) (pool : ScratchPool Value) :
    e.Predicts t e.rows (e.predict (some t) pool).1 := by
  obtain ⟨x, hx, hruns⟩ := e.expression_runsAs ht
  obtain ⟨hflatten, hne⟩ := e.chunks_flatten
  have hresult : e.predict (some t) pool = e.predictChunks x e.chunks pool := by
    simp only [predict, hx]
  have hchunks := predictChunks_rowByRow hstrict hruns ht hne
    (fun row hrow => by rwa [hflatten] at hrow) pool
  rwa [hflatten, ← hresult] at hchunks

/-- **A strict evaluator predicts as many numbers as it has rows, and each is what the tree evaluates
to on that row; it fails exactly if the tree fails on some row.**  This holds for every made tree of
usual symbols that passes the check, for all settings otherwise, and for any pool. -/
theorem predict_eq_evaluate {e : Evaluator} {t : Tree} (hstrict : e.settings.lenient = false)
    (hmade : t.Made) (hcheck : t.check = .ok ())
    (husual : ∀ u ∈ t.preorder, u.symbol.Usual Symbol.Scalar) (pool : ScratchPool Value) :
    (∀ ys, (e.predict (some t) pool).1 = .ok ys ↔ ys.length = e.rows.length ∧
      ∀ i (hrow : i < e.rows.length) (hy : i < ys.length),
        evaluate (some t) (e.bindRow e.rows[i]) = .ok ys[i]) ∧
    ((∃ failure, (e.predict (some t) pool).1 = .error failure) ↔
      ∃ row ∈ e.rows, ∃ failure, evaluate (some t) (e.bindRow row) = .error failure) := by
  have hready : ∀ u ∈ t.preorder, u.Ready Symbol.Scalar := fun u hu =>
    ⟨hmade u hu, (t.check_eq_ok_iff.mp hcheck) u hu, husual u hu⟩
  have hpredicts := predict_rowByRow hstrict hready pool
  refine ⟨fun ys => ?_, hpredicts.error_iff⟩
  rw [hpredicts.ok_iff, List.forall₂_iff_get, eq_comm]
  rfl

/-- Two rows for the small tree, each a chunk of its own. -/
def small : Evaluator where
  names := ["x"]
  rows := [[1.0], [2.0]]
  targets := [0.0, 0.0]
  goal := .regression
  settings := { threshold := 1, workers := 2 }
  width := by simp
  count := rfl
  inhabited := by simp

/-- The small evaluator predicts for the small tree what the tree evaluates to on its two rows, and
fails if the tree fails on one of them. -/
theorem predict_small : Evaluator.small.settings.lenient = false ∧
    Tree.small.Made ∧ Tree.small.check = .ok () ∧
    (∀ u ∈ Tree.small.preorder, u.symbol.Usual Symbol.Scalar) ∧
    (∀ ys, (Evaluator.small.predict (some .small) { maxSize := 1 }).1 = .ok ys ↔ ys.length = 2 ∧
      ∀ i (_ : i < 2) (hy : i < ys.length),
        evaluate (some .small) (Evaluator.small.bindRow Evaluator.small.rows[i]) = .ok ys[i]) ∧
    ((∃ failure, (Evaluator.small.predict (some .small) { maxSize := 1 }).1 = .error failure) ↔
      ∃ row ∈ Evaluator.small.rows, ∃ failure,
        evaluate (some .small) (Evaluator.small.bindRow row) = .error failure) := by
  obtain ⟨hmade, hcheck, husual⟩ := Tree.small_usual Symbol.total_twice.scalar
  exact ⟨rfl, hmade, hcheck, husual, predict_eq_evaluate rfl hmade hcheck husual { maxSize := 1 }⟩

end Evaluator
end FormulaEvolution
