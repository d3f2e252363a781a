/-
# Budgets of changed trees

Operators keep the bounds of a budget, which are not those of the budget alone: a tree that is over budget
may be returned as it is, so a budget bounds a tree *or* the tree it came from does (`Budget.Bounds`).  A
donor that the budget admits keeps them (`Budget.bounds_replace`).

Donors are subtrees of a tree, and there is one in every tree.
-/
import FormulaEvolution.Crossover
import FormulaEvolution.Proofs.Random.Outcome
import FormulaEvolution.Proofs.Tree.Replacement

namespace FormulaEvolution

/-! ## 1. Bounds -/

/-- A tree is within a budget, or not beyond the tree that it was made from. -/
structure Budget.Bounds (b : Budget) (origin t : Tree) : Prop where
  length_le : (t.length : Int) ≤ max b.maxLength origin.length
  depth_le : (t.depth : Int) ≤ max b.maxDepth origin.depth

/-- A tree is within a budget. -/
structure Budget.Holds (b : Budget) (t : Tree) : Prop where
  length_le : (t.length : Int) ≤ b.maxLength
  depth_le : (t.depth : Int) ≤ b.maxDepth

namespace Budget

variable {b : Budget} {origin t u donor : Tree} {p : Path}

theorem Bounds.refl (b : Budget) (t : Tree) : b.Bounds t t :=
  ⟨Int.le_max_right _ _, Int.le_max_right _ _⟩

theorem Bounds.trans {t' : Tree} (h : b.Bounds origin t) (h' : b.Bounds t t') :
    b.Bounds origin t' := by
  have ⟨hl, hd⟩ := h
  have ⟨hl', hd'⟩ := h'
  exact ⟨by omega, by omega⟩

/-- What comes from a tree within budget is within budget. -/
theorem Bounds.holds (h : b.Bounds origin t) (ho : b.Holds origin) : b.Holds t := by
  have ⟨hl, hd⟩ := h
  have ⟨hl', hd'⟩ := ho
  exact ⟨by omega, by omega⟩

/-- **A replacement that the budget admits stays within the bounds.** -/
theorem bounds_replace (hat : t.at? p = some u)
    (hadmits : b.admits (t.length - u.length) p.length donor = true) :
    b.Bounds t (Tree.replace donor p t) := by
  simp only [admits, Bool.and_eq_true, decide_eq_true_eq] at hadmits
  have hlength := Tree.length_replace donor hat
  have hdepth := Tree.depth_replace_le donor hat
  exact ⟨by omega, by omega⟩

end Budget

/-! ## 2. Donors -/

namespace Tree

/-- The subtrees that donors are drawn from stand somewhere in the tree. -/
theorem exists_at?_of_mem_postorder {t u : Tree} (h : u ∈ t.postorder) : ∃ p, at? p t = some u := by
  rw [← map_tree_sites, List.mem_map] at h
  obtain ⟨site, hsite, rfl⟩ := h
  exact ⟨site.path, at?_of_mem_sites hsite⟩

theorem postorder_ne_nil (t : Tree) : t.postorder ≠ [] := by
  rw [← map_tree_sites]
  intro h
  exact sites_ne_nil t (List.map_eq_nil_iff.mp h)

end Tree

end FormulaEvolution
