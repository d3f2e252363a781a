/-
# A pool of scratch dictionaries

Evaluations bind variables in dictionaries that they rent and give back.  A dictionary that is given
back is cleared and kept for the next one who rents, unless the pool has as many as it keeps.

A dictionary has an identity, since who has given it back may still write into it.  A block that
rents one clears it first.
-/
import FormulaEvolution.Dictionary
import FormulaEvolution.Failure

namespace FormulaEvolution

/-- A dictionary of a pool, by the order in which it was made. -/
abbrev ScratchId := Nat

/-- Dictionaries to rent.  `available` are those that nobody has rented, the last one given back
first; `contents` are all that were ever made. -/
structure ScratchPool (β : Type) where
  maxSize : Nat
  available : List ScratchId := []
  rentals : Nat := 0
  contents : List (Dictionary β) := []
  positive : 0 < maxSize := by omega

namespace ScratchPool

variable {α β : Type}

/-! ## 1. Renting and giving back -/

/-- The usual size of a pool. -/
def usualSize : Nat := 1000

/-- A pool of the usual size. -/
def usual : ScratchPool β where
  maxSize := usualSize
  positive := by decide

/-- A pool that keeps so many dictionaries, one at least. -/
def make (maxSize : Int) : Except Failure (ScratchPool β) :=
  if h : 0 < maxSize.toNat then .ok { maxSize := maxSize.toNat, positive := h }
  else .error (.invalid .poolSize)

/-- How many dictionaries were made. -/
def created (p : ScratchPool β) : Nat := p.contents.length

/-- What a dictionary holds. -/
def read (p : ScratchPool β) (i : ScratchId) : Dictionary β := p.contents.getD i []

/-- Make a dictionary hold something else. -/
def write (p : ScratchPool β) (i : ScratchId) (d : Dictionary β) : ScratchPool β :=
  { p with contents := p.contents.set i d }

/-- Rent a dictionary, a new one if none is available. -/
def rent (p : ScratchPool β) : ScratchId × ScratchPool β :=
  match p.available with
  | i :: rest => (i, { p with available := rest, rentals := p.rentals + 1 })
  | [] => (p.contents.length, { p with contents := p.contents ++ [[]], rentals := p.rentals + 1 })

/-- Give a dictionary back: it is cleared, and kept if there is room. -/
def giveBack (p : ScratchPool β) (i : ScratchId) : ScratchPool β :=
  let p := p.write i []
  if p.available.length < p.maxSize then { p with available := i :: p.available } else p

/-- Rent a dictionary and clear it. -/
def rentClear (p : ScratchPool β) : ScratchId × ScratchPool β :=
  let (i, p) := p.rent
  (i, p.write i [])

/-- Rent a cleared dictionary for the time of a block, which leaves something in it. -/
def within (p : ScratchPool β) (block : Dictionary β → α × Dictionary β) : α × ScratchPool β :=
  let (i, p) := p.rentClear
  let (result, d) := block (p.read i)
  (result, (p.write i d).giveBack i)

/-! ## 2. Facts -/

/-- What `giveBack` leaves available is no more than the pool keeps. -/
theorem available_giveBack_le {p : ScratchPool β} (h : p.available.length ≤ p.maxSize)
    (i : ScratchId) : (p.giveBack i).available.length ≤ (p.giveBack i).maxSize := by
  unfold giveBack
  by_cases hlt : p.available.length < p.maxSize
  · rw [if_pos (by exact hlt)]
    exact hlt
  · rw [if_neg (by exact hlt)]
    exact h

/-- Renting counts. -/
theorem rentals_rent (p : ScratchPool β) : p.rent.2.rentals = p.rentals + 1 := by
  unfold rent
  split <;> rfl

/-- Dictionaries that can be rented were made before. -/
def Known (p : ScratchPool β) : Prop := ∀ i ∈ p.available, i < p.contents.length

theorem read_write_self {p : ScratchPool β} {i : ScratchId} (h : i < p.contents.length)
    (d : Dictionary β) : (p.write i d).read i = d := by
  simp [read, write, List.getD_eq_getElem?_getD, h]

/-- A rented dictionary was made. -/
theorem rent_lt {p : ScratchPool β} (h : p.Known) : p.rent.1 < p.rent.2.contents.length := by
  unfold rent
  split
  · next i rest hi => exact h i (by simp [hi])
  · simp

/-- A dictionary that is cleared is empty, and so is one that was never made. -/
theorem read_write_nil (p : ScratchPool β) (i : ScratchId) : (p.write i []).read i = [] := by
  by_cases h : i < p.contents.length
  · exact read_write_self h []
  · simp [read, write, List.getD_eq_getElem?_getD, Nat.le_of_not_lt h]

/-- A block starts with an empty dictionary. -/
theorem read_rentClear (p : ScratchPool β) : p.rentClear.2.read p.rentClear.1 = [] :=
  read_write_nil p.rent.2 p.rent.1

/-- The result of a block is that of its body on an empty dictionary, whatever the pool holds. -/
theorem within_result (p : ScratchPool β) (block : Dictionary β → α × Dictionary β) :
    (p.within block).1 = (block []).1 := by
  simp only [within]
  rw [read_rentClear]

end ScratchPool
end FormulaEvolution
