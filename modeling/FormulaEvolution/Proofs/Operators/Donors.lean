/-
# Donors that are drawn until one fits

The subtree crossover cuts the first parent at one site and draws donors from the second one until one
fits or the attempts are used up.  Its child is the first parent with the first donor that fits in place
of what stood there, and the first parent itself if none of the drawn donors fits
(`Crossover.subtree_first_fit`).

A budget has room for a donor if the child that it makes is within the budget (`Budget.HasRoom`).  This
is said of the site and of the donor alone: the rest of the first parent is counted by what it has more
than the site, and a level by the length of its path.
-/
import FormulaEvolution.Proofs.Operators.Bounds
import FormulaEvolution.Proofs.Tree.Grafting

namespace FormulaEvolution

/-! ## 1. Room for a donor -/

namespace Budget

variable {b : Budget} {t donor : Tree} {point : Site}

/-- There is room for a donor in place of what stands at a site of a tree: the rest of the tree and the
donor together keep the budget of nodes, and the level of the site and those of the donor the budget of
levels. -/
def HasRoom (b : Budget) (t : Tree) (point : Site) (donor : Tree) : Prop :=
  (t.length : Int) - point.tree.length + donor.length ≤ b.maxLength ∧
    (point.level : Int) + donor.depth ≤ b.maxDepth

instance : Decidable (b.HasRoom t point donor) :=
  inferInstanceAs (Decidable (_ ∧ _))

theorem admits_iff :
    b.admits ((t.length : Int) - point.tree.length) point.level donor = true ↔
      b.HasRoom t point donor := by
  simp only [admits, HasRoom, Bool.and_eq_true, decide_eq_true_eq]

/-- A child that there is room for is within the bounds. -/
theorem HasRoom.bounds (h : b.HasRoom t point donor) (hat : t.at? point.path = some point.tree) :
    b.Bounds t (Tree.replace donor point.path t) :=
  bounds_replace hat (admits_iff.mpr h)

/-- What has become of the first parent after some attempts with the donors that were drawn: the first
one that there is room for has been put at the site, and without one the parent is left alone. -/
inductive Settles (b : Budget) (parent : Tree) (point : Site) : Nat → List Tree → Tree → Prop
  | exhausted : Settles b parent point 0 [] parent
  | accepted {attempts : Nat} {donor : Tree} : b.HasRoom parent point donor →
    Settles b parent point (attempts + 1) [donor] (Tree.replace donor point.path parent)
  | rejected {attempts : Nat} {donor : Tree} {drawn : List Tree} {child : Tree} :
    ¬b.HasRoom parent point donor → Settles b parent point attempts drawn child →
    Settles b parent point (attempts + 1) (donor :: drawn) child

/-- **Only the last of the donors can have been put at the site**, and if none has, all attempts have been
made. -/
theorem Settles.outcome {parent child : Tree} {attempts : Nat} {drawn : List Tree}
    (h : b.Settles parent point attempts drawn child) :
    (∃ rejected donor, drawn = rejected ++ [donor] ∧ drawn.length ≤ attempts ∧
      (∀ d ∈ rejected, ¬b.HasRoom parent point d) ∧ b.HasRoom parent point donor ∧
      child = Tree.replace donor point.path parent) ∨
    (drawn.length = attempts ∧ (∀ d ∈ drawn, ¬b.HasRoom parent point d) ∧ child = parent) := by
  induction h with
  | exhausted => exact .inr ⟨rfl, nofun, rfl⟩
  | @accepted attempts donor hroom =>
    exact .inl ⟨[], donor, rfl, Nat.succ_le_succ (Nat.zero_le attempts), nofun, hroom, rfl⟩
  | @rejected attempts donor drawn child hnone _ ih =>
    rcases ih with ⟨rejected, last, rfl, hle, hall, hroom, hchild⟩ | ⟨hlength, hall, hchild⟩
    · refine .inl ⟨donor :: rejected, last, rfl, Nat.succ_le_succ hle, ?_, hroom, hchild⟩
      exact List.forall_mem_cons.mpr ⟨hnone, hall⟩
    · refine .inr ⟨congrArg (· + 1) hlength, ?_, hchild⟩
      exact List.forall_mem_cons.mpr ⟨hnone, hall⟩

section Child

variable {parent child : Tree} {attempts : Nat} {drawn : List Tree} {P : Tree.NodeCondition}

/-- However many attempts there are, the child is within the bounds. -/
theorem Settles.bounds (hat : parent.at? point.path = some point.tree)
    (h : b.Settles parent point attempts drawn child) : b.Bounds parent child := by
  induction h with
  | exhausted => exact .refl b parent
  | accepted hroom => exact hroom.bounds hat
  | rejected _ _ ih => exact ih

/-- A condition on all nodes passes from the parent and the donors to the child. -/
theorem Settles.everywhere (hat : parent.at? point.path = some point.tree)
    (hparent : parent.Everywhere P) (hdrawn : ∀ d ∈ drawn, d.Everywhere P)
    (h : b.Settles parent point attempts drawn child) : child.Everywhere P := by
  induction h with
  | exhausted => exact hparent
  | accepted _ => exact Tree.everywhere_replace hparent (List.forall_mem_singleton.mp hdrawn) hat
  | rejected _ _ ih => exact ih (List.forall_mem_cons.mp hdrawn).2

end Child

end Budget

/-! ## 2. Trying donors -/

namespace Crossover

variable {σ : Type} [RandomSource σ] {b : Budget}

/-- A cut is made at one of the sites. -/
theorem returns_choosePoint (p : Float) {sites : List Site} (h : sites ≠ []) :
    (choosePoint p sites : Draws σ Site).Returns (· ∈ sites) := by
  unfold choosePoint
  refine Draws.returns_bind Draws.returns_unit fun u _ => ?_
  refine Draws.returns_ite (fun hinner => ?_) fun _ => Draws.returns_choose h
  have hne : sites.filter (·.isInner) ≠ [] := by
    intro hnil
    simp [hnil] at hinner
  exact (Draws.returns_choose hne).mono fun site hsite => (List.mem_filter.mp hsite).1

/-- **Donors are drawn until one fits.**  The induction is over the attempts; the run draws the donors it
tries and nothing else. -/
theorem runFrom_tryDonors {parent : Tree} {point : Site} {donors : List Tree} (hne : donors ≠ [])
    (hat : parent.at? point.path = some point.tree) (attempts : Nat) (s : σ) :
    ∃ drawn child s', (Draws.chooseEach donors drawn.length).runFrom s = (.ok drawn, s') ∧
      (tryDonors b parent point donors attempts).runFrom s = (.ok child, s') ∧
      (∀ d ∈ drawn, d ∈ donors) ∧ b.Settles parent point attempts drawn child := by
  induction attempts generalizing s with
  | zero => exact ⟨[], parent, s, rfl, rfl, nofun, .exhausted⟩
  | succ attempts ih =>
    obtain ⟨donor, s₁, hdraw, hdonor⟩ := Draws.returns_choose hne s
    rw [tryDonors, Draws.runFrom_bind_ok hdraw]
    by_cases hroom : b.HasRoom parent point donor
    · rw [if_pos (Budget.admits_iff.mpr hroom), Tree.put_of_at? donor hat]
      have hdrawn : (Draws.chooseEach donors [donor].length).runFrom s = (.ok [donor], s₁) :=
        Draws.runFrom_chooseEach_cons hdraw rfl
      refine ⟨[donor], _, s₁, hdrawn, Draws.runFrom_ofExcept _ s₁, ?_, .accepted hroom⟩
      · exact List.forall_mem_singleton.mpr hdonor
    · rw [if_neg fun hadmits => hroom (Budget.admits_iff.mp hadmits)]
      obtain ⟨drawn, child, s', hrest, hrun, hall, hsettles⟩ := ih s₁
      refine ⟨donor :: drawn, child, s', Draws.runFrom_chooseEach_cons hdraw hrest, hrun, ?_, ?_⟩
      · exact List.forall_mem_cons.mpr ⟨hdonor, hall⟩
      · exact .rejected hroom hsettles

/-- A site is drawn, and donors are tried there. -/
theorem runFrom_crossSubtree (b : Budget) (innerProbability : Float) (attempts : Int)
    (parent0 parent1 : Tree) (s : σ) :
    ∃ point s₁ drawn child s₂,
      (choosePoint (clampProbability innerProbability) parent0.sites).runFrom s = (.ok point, s₁) ∧
      parent0.at? point.path = some point.tree ∧
      (Draws.chooseEach parent1.postorder drawn.length).runFrom s₁ = (.ok drawn, s₂) ∧
      (∀ d ∈ drawn, ∃ p, parent1.at? p = some d) ∧
      (crossSubtree b innerProbability attempts parent0 parent1).runFrom s = (.ok child, s₂) ∧
      b.Settles parent0 point (max 1 attempts).toNat drawn child := by
  obtain ⟨point, s₁, hpoint, hsite⟩ :=
    returns_choosePoint (clampProbability innerProbability) (Tree.sites_ne_nil parent0) s
  have hat := Tree.at?_of_mem_sites hsite
  obtain ⟨drawn, child, s₂, hdrawn, hrun, hdonors, hsettles⟩ := runFrom_tryDonors (b := b)
    (Tree.postorder_ne_nil parent1) hat (max 1 attempts).toNat s₁
  refine ⟨point, s₁, drawn, child, s₂, hpoint, hat, hdrawn, ?_, ?_, hsettles⟩
  · exact fun d hd => Tree.exists_at?_of_mem_postorder (hdonors d hd)
  · rw [crossSubtree, Draws.runFrom_bind_ok hpoint, hrun]

end Crossover
end FormulaEvolution
