/-
# What crossovers return

Every crossover returns a tree from every random source and for all settings
(`Crossover.returns_cross`).  The tree keeps the bounds of the budget, and a condition on all nodes that
both parents satisfy is satisfied by the child.

Both come from what each of the crossovers does in a run: donors are drawn until one fits, one subtree is
exchanged for one from the same level, or sites are visited one after the other and leave a child with
grafts.
-/
import FormulaEvolution.Proofs.Operators.Levels
import FormulaEvolution.Proofs.Operators.Swaps

namespace FormulaEvolution
namespace Crossover

variable {σ : Type} [RandomSource σ] {P : Tree.NodeCondition} {parent0 parent1 : Tree}

/-- The budget of a crossover. -/
def budget : Crossover → Budget
  | .subtree b _ _ => b
  | .onePoint b => b
  | .uniform b _ => b

/-- **Crossing never fails and never exceeds its bounds**, and a condition on all nodes passes from
the parents to the child. -/
theorem returns_cross (c : Crossover) (h0 : parent0.Everywhere P) (h1 : parent1.Everywhere P) :
    (c.cross parent0 parent1 : Draws σ Tree).Returns fun t =>
      c.budget.Bounds parent0 t ∧ t.Everywhere P := by
  intro s
  cases c with
  | subtree b p attempts =>
    obtain ⟨point, _, drawn, child, s', _, hat, _, hfrom, hrun, hsettles⟩ :=
      runFrom_crossSubtree b p attempts parent0 parent1 s
    refine ⟨child, s', hrun, hsettles.bounds hat, hsettles.everywhere hat h0 fun d hd => ?_⟩
    obtain ⟨path, hpath⟩ := hfrom d hd
    exact Tree.everywhere_at? h1 hpath
  | onePoint b =>
    by_cases hdeep : 1 < min parent0.depth parent1.depth
    · obtain ⟨_, _, _, _, _, s', _, _, _, hpair, hrun⟩ := runFrom_crossOnePoint b hdeep s
      have hdonor := Tree.everywhere_at? h1 hpair.at_donor
      exact ⟨_, s', hrun, bounds_exchanged hpair.at_point, everywhere_exchanged hpair.at_point h0 hdonor⟩
    · exact ⟨parent0, s, runFrom_crossOnePoint_shallow b hdeep s, .refl b parent0, h0⟩
  | uniform b p =>
    obtain ⟨child, _, s', hrun, hchild, -⟩ := runFrom_swapAlong_sites (b := b)
      (p := clampProbability p) parent1 (List.append_nil parent0.sites).symm s
    exact ⟨child, s', hrun, hchild.bounds, hchild.everywhere h0 h1⟩

end Crossover
end FormulaEvolution
