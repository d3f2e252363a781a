/-
# A node less

The mutation takes a subtree out whose parent has a child more than it needs.  If no node has one, taking a
child out would leave too few, and one of the inner nodes gives its place to one of its children instead.

`Mutator.Removed` tells these two moves apart.  Both are replacements at one place: of a node by the same
node without a child (`Tree.erase_child`), and of a node by its child.  So both are one graft, and leave
every node that is not below the place (`Mutator.Removed.grafted`).

Where trees are changed in place, either move is one step on a copy of the tree (`Removed.copyBecomes`).
-/
import FormulaEvolution.Proofs.Arena.Exchange
import FormulaEvolution.Proofs.Arena.Planting
import FormulaEvolution.Proofs.Operators.Mutation
import FormulaEvolution.Proofs.Operators.Swaps

namespace FormulaEvolution

/-- What a removal does to a tree in place: a child is taken out of a node, or a node gives its place to one
of its children; or nothing is done. -/
inductive Arena.Shrunk (r : TreeId) (a : Arena) : Arena → Prop
  | kept : Shrunk r a a
  | spared {p c : NodeId} {index : Nat} {b : Arena} :
    a.removeChild p index = .ok (c, b) → Shrunk r a b
  | lifted {j c : NodeId} {index : Nat} {b : Arena} : a.childOf j index = .ok c →
    a.replaceNode r (some j) (some c) = .ok b → Shrunk r a b

namespace Mutator

variable {σ : Type} [RandomSource σ] {t t' : Tree}

/-- **What has been removed**, in a tree with more than one node: a child that a node could spare, with
all that is below it; or, if no node could spare one, a node and all its children but one, which stands
where the node has stood. -/
theorem Removed.grafted (h : Removed t t') (hinner : t.children ≠ []) :
    (∃ p i parent, t.at? p = some parent ∧ i < parent.children.length ∧
      parent.symbol.least < parent.children.length ∧
      Tree.Grafted [⟨p, parent.withChildren (parent.children.eraseIdx i)⟩] t t') ∨
    ¬HasSpare t ∧ ∃ p u child, t.at? p = some u ∧ child ∈ u.children ∧
      Tree.Grafted [⟨p, child⟩] t t' ∧ (p = [] → t' = child) := by
  cases h with
  | @spared p i parent hparent hi hleast =>
    refine .inl ⟨p, i, parent, hparent, hi, hleast, ?_⟩
    rw [Tree.erase_child i hparent]
    exact Tree.grafted_replace _ hparent
  | @lifted p u child hspare hat hchild =>
    refine .inr ⟨hspare, p, u, child, hat, hchild, Tree.grafted_replace child hat, ?_⟩
    rintro rfl
    rfl
  | single hnone => exact absurd hnone hinner

/-- **What has been removed is removed in place by one step.** -/
theorem Removed.shrunk (h : Removed t t') {a : Arena} {r : TreeId} {i : NodeId}
    (hforest : a.links.Forest a.nodes.length) (hroot : a.root? r = some i) (hstands : a.Stands none i t) :
    ∃ b j come, Arena.Shrunk r a b ∧ Arena.Became a b r i j t' come ∧ a.links.Below i j ∧
      ∀ k ∈ come, a.links.Below i k := by
  cases h with
  | @spared p index parent hparent hindex hleast =>
    obtain ⟨x, c, b, hrun, hbecame⟩ := hstands.removeChild_at hforest hroot hparent hindex hleast
    exact ⟨b, i, [], .spared hrun, hbecame, .refl, nofun⟩
  | @lifted p u child _ hat hchild =>
    obtain ⟨index, hindex⟩ := List.mem_iff_getElem?.mp hchild
    obtain ⟨s, us, ws, rfl, -⟩ := Tree.exists_split hindex
    rcases List.eq_nil_or_concat' p with rfl | ⟨parents, k, rfl⟩
    · obtain rfl : t = .node s (us ++ child :: ws) := Option.some.inj hat
      obtain ⟨n, before, c, after, hslot⟩ := hstands.slot
      obtain ⟨b, hrun, hbecame⟩ := Arena.Stands.replaceRoot hforest hroot hslot.stands
      have hic : a.links.Below i c := .single hslot.isChild
      exact ⟨b, c, [c], .lifted hslot.childOf_eq hrun, hbecame, hic, List.forall_mem_singleton.mpr hic⟩
    · obtain ⟨x, j, hij, hj, hcomes⟩ := hstands.replaceNode_at hforest hroot hat
      obtain ⟨n, before, c, after, hslot⟩ := hj.slot
      obtain ⟨b, hrun, hbecame⟩ := hcomes c _ child hslot.stands (.inl hslot.isChild)
      exact ⟨b, i, [c], .lifted hslot.childOf_eq hrun, hbecame, .refl,
        List.forall_mem_singleton.mpr (hij.tail hslot.isChild)⟩
  | single _ =>
    exact ⟨a, i, [], .kept, ⟨hroot, hstands, fun _ _ _ => rfl, fun _ _ => rfl, rfl⟩, .refl, nofun⟩

/-- **A removal is one step on a copy of the tree.** -/
theorem Removed.copyBecomes (h : Removed t t') : Arena.CopyBecomes Arena.Shrunk t t' := by
  refine Arena.copyBecomes_of_step ?_ h.shrunk
  rcases h.smaller with ⟨-, hle⟩ | ⟨-, rfl⟩
  · exact hle
  · exact Nat.le_refl _

/-- A tree with one node is one without children. -/
theorem children_eq_nil_iff : t.children = [] ↔ t.length = 1 := by
  rw [Tree.length_eq]
  constructor
  · intro hnone
    rw [hnone, Tree.totalLength]
  · intro hone
    cases hchildren : t.children with
    | nil => rfl
    | cons c cs =>
      have hpos := Tree.length_pos c
      rw [hchildren, Tree.totalLength] at hone
      omega

/-- **A removal leaves one node less at least.**  For every tree that fits, with or without a grammar, and
every source a tree is returned that fits.  A single node is returned as it is.  From any other tree comes
one that is shorter and not deeper: without one child of a node that has more than it needs, and all that is
below the child; or, only if no node has more than it needs, with one of its children in the place of one
inner node, which is the tree itself if that node was its root.

Where trees are changed in place, either is one step on a copy of the tree.  It leaves the tree itself and
all other nodes as they were, and the copy is whole: its root has no parent, every other node has the one
that it is a child of, and nothing that is remembered is false. -/
theorem node_removed (ht : t.Fits) (g? : Option Grammar) (s : σ) :
    ∃ t' s', (Mutator.nodeRemoval.mutate g? (some t)).runFrom s = (.ok t', s') ∧
      t'.Fits ∧
      (t.length = 1 → t' = t) ∧
      (1 < t.length → t'.length < t.length ∧ t'.depth ≤ t.depth ∧
        ((∃ p i parent, t.at? p = some parent ∧ i < parent.children.length ∧
          parent.symbol.least < parent.children.length ∧
          Tree.Grafted [⟨p, parent.withChildren (parent.children.eraseIdx i)⟩] t t') ∨
        ¬HasSpare t ∧ ∃ p u child, t.at? p = some u ∧ child ∈ u.children ∧
          Tree.Grafted [⟨p, child⟩] t t' ∧ (p = [] → t' = child))) ∧
      Arena.CopyBecomes Arena.Shrunk t t' := by
  obtain ⟨t', s', hrun, hremoved⟩ := returns_removeNode t s
  refine ⟨t', s', hrun, hremoved.everywhere (fun _ _ _ => Symbol.accepts_pred) ht, ?_, ?_,
    hremoved.copyBecomes⟩
  · intro hone
    rcases hremoved.smaller with ⟨hlt, -⟩ | ⟨-, hsame⟩
    · have hpos := Tree.length_pos t'
      omega
    · exact hsame
  · intro hmany
    have hinner : t.children ≠ [] := by
      rw [Ne, children_eq_nil_iff]
      omega
    rcases hremoved.smaller with ⟨hlength, hdepth⟩ | ⟨hnone, -⟩
    · exact ⟨hlength, hdepth, hremoved.grafted hinner⟩
    · exact absurd hnone hinner

/-- A removal from a chain of three nodes, none of which can spare its child, and the same in an arena. -/
theorem node_removed_chain :
    ∃ t' s', (Mutator.nodeRemoval.mutate none (some (Tree.chain 2))).runFrom (Twister.ofSeed 1) =
      (.ok t', s') ∧ t'.Fits ∧ t'.length < 3 ∧ t'.depth ≤ 3 ∧
      ∃ (a b : Arena) (r : TreeId) (i : NodeId), a.Sound ∧ a.toTree? r = .ok (some (Tree.chain 2)) ∧
        Arena.Shrunk (a.copyTree r).1 (a.copyTree r).2 b ∧ a.Beside b (a.copyTree r).1 i t' := by
  obtain ⟨t', s', hrun, hfits, -, hmany, hplace⟩ :=
    node_removed (Tree.fits_chain 2) none (Twister.ofSeed 1)
  obtain ⟨hlength, hdepth, -⟩ := hmany (by decide)
  obtain ⟨a, r, hsound, hread⟩ := Arena.exists_read (Tree.made_chain 2)
  obtain ⟨b, i, hshrunk, hbeside, -⟩ := hplace a r hsound hread
  exact ⟨t', s', hrun, hfits, hlength, hdepth, a, b, r, i, hsound, hread, hshrunk, hbeside⟩

end Mutator
end FormulaEvolution
