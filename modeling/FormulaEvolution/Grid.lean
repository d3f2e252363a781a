/-
# Grids of numbers

Numbers laid out along any number of dimensions, as nested lists of the same lengths: a number by
itself has none, a list of numbers has one, a list of such lists has two.  Data is handed over as a
grid, and what takes data says which shapes it takes.
-/
import FormulaEvolution.Json.Display

namespace FormulaEvolution

/-- Numbers with the lengths of their dimensions, the outermost first, and all entries in order. -/
structure Grid where
  shape : List Nat
  entries : List Float

namespace Grid

/-! ## 1. Shapes -/

/-- The shape of a value: of a list, its length before the shape that its items have in common. -/
def common (shapes : List (Option (List Nat))) : Option (List Nat) :=
  match shapes with
  | [] => some [0]
  | first :: rest =>
    if rest.all (· == first) then first.map ((rest.length + 1) :: ·) else none

mutual

/-- The shape of a value, if the lists in it have the same lengths. -/
def shapeOf : Json → Option (List Nat)
  | .list items => common (shapesOf items)
  | _ => some []

/-- The shapes of several values. -/
def shapesOf : List Json → List (Option (List Nat))
  | [] => []
  | item :: items => shapeOf item :: shapesOf items

end

/-- How a shape is shown. -/
def shapeText : List Nat → String
  | [] => "()"
  | [n] => "(" ++ toString n ++ ",)"
  | ns => "(" ++ ", ".intercalate (ns.map toString) ++ ")"

/-! ## 2. Entries -/

/-- The number that an entry is; nothing is no number. -/
def entryOf : Json → Except Failure Float
  | .null => .ok Number.notANumber
  | value => value.toFloat

mutual

/-- The numbers in a value, in order. -/
def entriesOf : Json → Except Failure (List Float)
  | .list items => entriesOfAll items
  | value => (entryOf value).map ([·])

/-- The numbers in several values, in order. -/
def entriesOfAll : List Json → Except Failure (List Float)
  | [] => .ok []
  | item :: items => do
    let xs ← entriesOf item
    let ys ← entriesOfAll items
    return xs ++ ys

end

/-- The grid that a value is. -/
def ofJson (value : Json) : Except Failure Grid :=
  match shapeOf value with
  | none => .error (.invalid .unevenRows)
  | some shape => (entriesOf value).map fun entries => ⟨shape, entries⟩

/-! ## 3. Rows -/

/-- Cut entries into rows of one width. -/
def cut (width : Nat) : Nat → List Float → List (List Float)
  | 0, _ => []
  | rows + 1, xs => xs.take width :: cut width rows (xs.drop width)

@[simp] theorem length_cut (width rows : Nat) (xs : List Float) :
    (cut width rows xs).length = rows := by
  induction rows generalizing xs with
  | zero => rfl
  | succ rows ih => simp [cut, ih]

/-- Rows cut out of enough entries have their width. -/
theorem length_of_mem_cut {width rows : Nat} {xs row : List Float}
    (h : xs.length = rows * width) (hr : row ∈ cut width rows xs) : row.length = width := by
  induction rows generalizing xs with
  | zero => simp [cut] at hr
  | succ rows ih =>
    rw [Nat.succ_mul] at h
    simp only [cut, List.mem_cons] at hr
    rcases hr with rfl | hr
    · simp only [List.length_take]; omega
    · exact ih (by simp only [List.length_drop]; omega) hr

/-- A single dimension as a column. -/
def upright (g : Grid) : Grid :=
  match g.shape with
  | [n] => { g with shape := [n, 1] }
  | _ => g

end Grid
end FormulaEvolution
