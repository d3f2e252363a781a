/-
# Dictionaries

Names with values, in the order in which the names first came.  A name has one place: binding it
again changes its value there.
-/
namespace FormulaEvolution

/-- Names with values. -/
abbrev Dictionary (β : Type) := List (String × β)

namespace Dictionary

variable {β : Type}

/-- The value of a name. -/
def value? (d : Dictionary β) (name : String) : Option β := (d.find? (·.1 = name)).map (·.2)

/-- Bind a name, in place if it is bound already. -/
def bind (name : String) (value : β) : Dictionary β → Dictionary β
  | [] => [(name, value)]
  | (n, v) :: rest => if n = name then (n, value) :: rest else (n, v) :: bind name value rest

/-- Bind names to values, pair by pair, as far as both go. -/
def bindAll (d : Dictionary β) (names : List String) (values : List β) : Dictionary β :=
  (names.zip values).foldl (fun d (name, value) => d.bind name value) d

/-- Bind the names of another dictionary. -/
def bindFrom (d other : Dictionary β) : Dictionary β :=
  other.foldl (fun d (name, value) => d.bind name value) d

/-- A name has the value that it was bound to last. -/
theorem value?_bind (d : Dictionary β) (name other : String) (value : β) :
    (d.bind name value).value? other = if name = other then some value else d.value? other := by
  induction d with
  | nil =>
    by_cases h : name = other <;> simp [Dictionary.bind, value?, h]
  | cons p rest ih =>
    obtain ⟨n, v⟩ := p
    simp only [value?] at ih
    by_cases hn : n = name
    · subst hn
      by_cases h : n = other <;> simp [Dictionary.bind, value?, h]
    · by_cases ho : n = other
      · subst ho
        have : name ≠ n := fun e => hn e.symm
        simp [Dictionary.bind, value?, hn, this]
      · simp [Dictionary.bind, value?, hn, ho, ih]

/-- Binding a name keeps the number of names or adds one. -/
theorem length_bind (name : String) (value : β) (d : Dictionary β) :
    (d.bind name value).length =
      if d.any (·.1 = name) then d.length else d.length + 1 := by
  induction d with
  | nil => simp [Dictionary.bind]
  | cons f fs ih =>
    obtain ⟨n, v⟩ := f
    by_cases h : n = name
    · simp [Dictionary.bind, h]
    · simp only [Dictionary.bind, h, if_false, List.length_cons, ih, List.any_cons, decide_false,
        Bool.false_or]
      split <;> rfl

end Dictionary
end FormulaEvolution
