/-
# Scores

A fitness is a double, or nothing for a candidate that is not scored yet.  For every comparison it
is replaced by its key: what is not scored or is no number counts as minus infinity.  Keys are
numbers, and numbers are compared by their `rank`, so that keys are linearly ordered.
-/
import FormulaEvolution.Number.Double

namespace FormulaEvolution

/-- The key of a fitness. -/
def fitnessKey : Option Float → Float
  | none => -Number.infinity
  | some x => if Number.isNaN x then -Number.infinity else x

/-- The place of a fitness in the order of fitness values. -/
def fitnessRank (fitness : Option Float) : Int := Number.rank (fitnessKey fitness)

/-- A fitness that beats another one strictly. -/
def beats (a b : Option Float) : Bool := fitnessRank b < fitnessRank a

/-- A fitness that is at least as good as another one. -/
def matchesOrBeats (a b : Option Float) : Bool := fitnessRank b ≤ fitnessRank a

/-- Sort by fitness, the best first.  Equals keep their order. -/
def sortByFitness {α : Type} (fitness : α → Option Float) (xs : List α) : List α :=
  xs.mergeSort fun a b => matchesOrBeats (fitness a) (fitness b)

/-! ## Facts -/

theorem beats_iff_not {a b : Option Float} : beats a b = true ↔ matchesOrBeats b a = false := by
  simp [beats, matchesOrBeats]

theorem matchesOrBeats_refl (a : Option Float) : matchesOrBeats a a = true := by
  simp [matchesOrBeats]

theorem matchesOrBeats_trans {a b c : Option Float} (hab : matchesOrBeats a b = true)
    (hbc : matchesOrBeats b c = true) : matchesOrBeats a c = true := by
  simp only [matchesOrBeats, decide_eq_true_eq] at *
  omega

theorem matchesOrBeats_total (a b : Option Float) :
    (matchesOrBeats a b || matchesOrBeats b a) = true := by
  simp only [matchesOrBeats, Bool.or_eq_true, decide_eq_true_eq]
  omega

/-- Sorting keeps the members. -/
theorem sortByFitness_perm {α : Type} (fitness : α → Option Float) (xs : List α) :
    (sortByFitness fitness xs).Perm xs := List.mergeSort_perm xs _

section Sorting

variable {α : Type} (fitness : α → Option Float)

theorem matchesOrBeats_trans_on (a b c : α) (hab : matchesOrBeats (fitness a) (fitness b) = true)
    (hbc : matchesOrBeats (fitness b) (fitness c) = true) :
    matchesOrBeats (fitness a) (fitness c) = true := matchesOrBeats_trans hab hbc

/-- **Sorting puts better before worse.** -/
theorem sortByFitness_pairwise (xs : List α) :
    (sortByFitness fitness xs).Pairwise fun a b =>
      matchesOrBeats (fitness a) (fitness b) = true :=
  List.pairwise_mergeSort (matchesOrBeats_trans_on fitness)
    (fun a b => matchesOrBeats_total (fitness a) (fitness b)) xs

/-- **Sorting is stable**: those of one rank keep their order.  They are sorted already, so they
stand in the sorted list as they stood before, and there are as many of them. -/
theorem sortByFitness_stable (xs : List α) (rank : Int) :
    (sortByFitness fitness xs).filter (fun x => fitnessRank (fitness x) = rank) =
      xs.filter fun x => fitnessRank (fitness x) = rank := by
  have hequal : (xs.filter fun x => fitnessRank (fitness x) = rank).Pairwise fun x y =>
      matchesOrBeats (fitness x) (fitness y) = true := by
    rw [List.pairwise_iff_forall_sublist]
    intro x y hxy
    have hx := hxy.subset (List.mem_cons_self : x ∈ [x, y])
    have hy := hxy.subset (by simp : y ∈ [x, y])
    simp only [List.mem_filter, decide_eq_true_eq] at hx hy
    exact decide_eq_true (Int.le_of_eq (hy.2.trans hx.2.symm))
  have hsub : (xs.filter fun x => fitnessRank (fitness x) = rank).Sublist
      (sortByFitness fitness xs) :=
    List.sublist_mergeSort (matchesOrBeats_trans_on fitness)
      (fun a b => matchesOrBeats_total (fitness a) (fitness b)) hequal List.filter_sublist
  have hfiltered := hsub.filter fun x => fitnessRank (fitness x) = rank
  rw [List.filter_filter] at hfiltered
  simp only [Bool.and_self] at hfiltered
  have hlength := ((sortByFitness_perm fitness xs).filter
    fun x => fitnessRank (fitness x) = rank).length_eq
  exact (hfiltered.eq_of_length hlength.symm).symm

end Sorting

end FormulaEvolution
