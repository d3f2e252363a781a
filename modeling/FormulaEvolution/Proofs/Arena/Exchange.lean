/-
# Trees changed in place

What a node stands for after one of its children has been taken out (`Slot.removeChild`) or exchanged
(`Slot.replaceChild`), and what the whole tree is then: the one without the subtree
(`Stands.removeChild_at`), or with another one in its place (`Stands.replaceRoot`,
`Stands.replaceNode_at`).  A node may also be altered by itself (`Stands.alter_at`).

All that is changed lies below the root of the tree, besides the node that comes.  That one is taken from
elsewhere and has no parent, or it is a child of the node whose place it takes.  In the second case the old
node still has it among its children, so that the arena is not in order any more; but the old node is not
part of the tree, and the tree is whole.

Operators do this to copies.  A copy has new nodes only, so that whatever is done to it leaves all that
there was as it was (`copyBecomes_of_step`).
-/
import FormulaEvolution.Proofs.Arena.Copy

namespace FormulaEvolution

namespace Arena

variable {a b : Arena} {p i j c d k : NodeId} {o q : Option NodeId}

/-! ## 1. One child -/

/-- What is above a node below the root of a tree is below that root. -/
theorem below_of_above (hforest : a.links.Forest a.nodes.length) (hi : a.parentOf i = none)
    (hip : a.links.Below i p) (hkp : a.links.Below k p) : a.links.Below i k := by
  rcases hforest.below_or_below hip hkp with hik | hki
  · exact hik
  · exact hforest.eq_of_below_orphan hi hki ▸ .refl

/-- A node has been changed and some others that are not above it: those above have forgotten, and all
others are as they were. -/
structure Reshaped (a b : Arena) (p : NodeId) (changed : List NodeId) : Prop where
  above : ∀ k, a.links.Below k p → k ≠ p → b.node? k = (a.node? k).map Node.forgotten
  others : ∀ k, ¬a.links.Below k p → k ∉ changed → b.node? k = a.node? k
  roots : b.roots = a.roots
  count : b.nodes.length = a.nodes.length

/-- Nodes are altered, none of which is above a node, and then this one and those above forget. -/
theorem reshaped_forgetUpward {changed : List NodeId} (h : a.links.Forest a.nodes.length)
    (hp : p < a.nodes.length) (hcount : b.nodes.length = a.nodes.length) (hroots : b.roots = a.roots)
    (hothers : ∀ k, k ≠ p → k ∉ changed → b.node? k = a.node? k) (hparent : b.parentOf p = a.parentOf p)
    (hchanged : ∀ k ∈ changed, ¬a.links.Below k p) :
    Reshaped a (b.forgetUpward p) p changed ∧
      (b.forgetUpward p).node? p = (b.node? p).map Node.forgotten ∧
      ∀ k ∈ changed, (b.forgetUpward p).node? k = b.node? k := by
  have hup : ∀ k, a.links.Below k p → k ≠ p → b.node? k = a.node? k := fun k hk hkp =>
    hothers k hkp fun hin => hchanged k hin hk
  have hsame : ∀ k, a.links.Below k p → b.parentOf k = a.parentOf k := fun k hk => by
    by_cases hkp : k = p
    · rw [hkp, hparent]
    · rw [parentOf, parentOf, hup k hk hkp]
  have hforget := fun k => node?_forgetUpward (i := k) h hp hcount hsame
  refine ⟨⟨fun k hk hkp => ?_, fun k habove hin => ?_, (roots_forgetAll b _).trans hroots,
    (length_forgetAll _).trans hcount⟩, (hforget p).1 .refl, fun k hk => (hforget k).2 (hchanged k hk)⟩
  · rw [(hforget k).1 hk, hup k hk hkp]
  · rw [(hforget k).2 habove]
    exact hothers k (fun heq => habove (heq ▸ .refl)) hin

namespace Slot

variable {n : Node} {before after : List NodeId} {s : Symbol} {us ws : List Tree} {v w : Tree}

section

variable (h : Slot a o p n before c after s us v ws)

include h

theorem getElem?_eq : n.children[before.length]? = some c := by
  rw [h.split, List.getElem?_append_right (Nat.le_refl _), Nat.sub_self, List.getElem?_cons_zero]

theorem childAt_eq : childAt n before.length = .ok c := by
  rw [childAt, if_neg (by omega), Int.toNat_natCast, h.getElem?_eq]

theorem childOf_eq : a.childOf p before.length = .ok c := by
  have hexpect : a.expect p = .ok n := by rw [expect, h.node]
  simp only [childOf, hexpect, bind, Except.bind]
  rw [if_neg (by omega), if_neg (by omega), Int.toNat_natCast, h.getElem?_eq]
  rfl

/-- Below the other children nothing has changed, if none of the changed nodes is there. -/
theorem same_below {changed : List NodeId} (hforest : a.links.Forest a.nodes.length)
    (hb : Reshaped a b p changed) (hchanged : ∀ d ∈ changed, ∀ k ∈ before ++ after, ¬a.links.Below k d) :
    ∀ k ∈ before ++ after, ∀ m, a.links.Below k m → b.node? m = a.node? m := by
  intro k hk m hm
  refine hb.others m (fun hmp => ?_) fun hin => hchanged m hin k hk hm
  exact (h.apart hforest hk hm .refl).1 (hmp.tail h.isChild)

/-- **With a child taken out a node stands for the tree without the subtree.** -/
theorem removeChild (hforest : a.links.Forest a.nodes.length) (hspare : s.least < n.children.length) :
    ∃ b, a.removeChild p before.length = .ok (c, b) ∧ Reshaped a b p [c] ∧
      b.Stands o p (.node s (us ++ ws)) := by
  have hcp : c ≠ p := fun heq => hforest.acyclic p (.single (heq ▸ h.isChild))
  have hsymbol : n.symbol = s := h.heads.made.2
  obtain ⟨b, hb⟩ : ∃ b, b = (a.setChildren p (before ++ after)).setParent c none := ⟨_, rfl⟩
  have hnode : b.node? p = some { n with children := before ++ after } := by
    rw [hb, node?_setParent_of_ne none hcp.symm, node?_setChildren_self, h.node, Option.map_some]
  have hothers : ∀ k, k ≠ p → k ∉ [c] → b.node? k = a.node? k := fun k hkp hkc => by
    rw [hb, node?_setParent_of_ne none (List.mem_singleton.not.mp hkc), node?_setChildren_of_ne _ hkp]
  obtain ⟨hreshaped, hforgotten, -⟩ := reshaped_forgetUpward hforest (node?_lt h.node)
    (hb ▸ (length_setParent none).trans (length_setChildren _)) (hb ▸ rfl) hothers
    ((parentOf_of_node? hnode).trans (parentOf_of_node? h.node).symm)
    (List.forall_mem_singleton.mpr (hforest.not_below_of_child h.isChild))
  refine ⟨b.forgetUpward p, ?_, hreshaped, ?_⟩
  · have hexpect : a.expect p = .ok n := by rw [expect, h.node]
    have herase : n.children.eraseIdx before.length = before ++ after := by
      rw [h.split, eraseIdx_split]
    simp only [Arena.removeChild, hexpect, bind, Except.bind, h.childAt_eq, hsymbol]
    rw [if_neg (by omega), Int.toNat_natCast, herase, hb]
    rfl
  · rw [hnode, Option.map_some] at hforgotten
    have hsame := h.same_below hforest hreshaped (List.forall_mem_singleton.mpr fun k hk hkc =>
      (h.apart hforest hk .refl .refl).1 hkc)
    have hsplit : before ++ after = before ++ [] ++ after := by rw [List.append_nil]
    have hstands : (b.forgetUpward p).Stands o p (.node s (us ++ [] ++ ws)) :=
      h.exchange hforgotten hsplit (Node.heads_forgotten ⟨h.heads.made.1, h.heads.made.2⟩
        h.heads.parent) hsame .nil
    rwa [List.append_nil] at hstands

/-- A child of the node whose place it takes may come, and so may a node without a parent that is not the
root above. -/
theorem mayCome (hforest : a.links.Forest a.nodes.length) (hi : a.parentOf i = none)
    (hip : a.links.Below i p) (hcomes : a.links.IsChild c d ∨ a.parentOf d = none ∧ d ≠ i) :
    d ≠ c ∧ ¬a.links.Below d p ∧ (∀ k ∈ before ++ after, ¬a.links.Below k d) ∧
      (a.links.Below i d → a.links.Below p d) := by
  rcases hcomes with hchild | ⟨horphan, hne⟩
  · refine ⟨?_, fun hdp => ?_, fun k hk hkd => ?_, fun _ => ?_⟩
    · rintro rfl
      exact hforest.not_below_of_child hchild .refl
    · exact hforest.not_below_of_child hchild (hdp.tail h.isChild)
    · exact (h.apart hforest hk hkd (.single hchild)).1 .refl
    · exact .tail (.single h.isChild) hchild
  · refine ⟨?_, fun hdp => ?_, fun k hk hkd => ?_, fun hid => ?_⟩
    · rintro rfl
      exact hforest.not_child_of_orphan horphan h.isChild
    · exact hne (hforest.eq_of_below_orphan horphan (below_of_above hforest hi hip hdp)).symm
    · have hkd := hforest.eq_of_below_orphan horphan hkd
      exact hforest.not_child_of_orphan horphan (hkd ▸ h.isChild_of_mem hk)
    · exact absurd (hforest.eq_of_below_orphan horphan hid).symm hne

/-- **With a child exchanged a node stands for the tree with another subtree.**  The node that comes is not
above the place, and not below one of the other children. -/
theorem replaceChild (hforest : a.links.Forest a.nodes.length) (hd : a.Stands q d w) (hdc : d ≠ c)
    (hdp : ¬a.links.Below d p) (hapart : ∀ k ∈ before ++ after, ¬a.links.Below k d) :
    ∃ b, a.replaceChild p before.length (some d) = .ok (c, b) ∧ Reshaped a b p [c, d] ∧
      b.Stands o p (.node s (us ++ w :: ws)) := by
  have hcp : c ≠ p := fun heq => hforest.acyclic p (.single (heq ▸ h.isChild))
  have hpd : p ≠ d := fun heq => hdp (heq ▸ .refl)
  obtain ⟨b, hb⟩ : ∃ b, b = ((a.setParent c none).setChildren p (before ++ d :: after)).setParent d
    (some p) := ⟨_, rfl⟩
  have hnode : b.node? p = some { n with children := before ++ d :: after } := by
    rw [hb, node?_setParent_of_ne _ hpd, node?_setChildren_self, node?_setParent_of_ne _ hcp.symm, h.node,
      Option.map_some]
  have hcome : b.node? d = (a.node? d).map fun n => { n with parent := some p } := by
    rw [hb, node?_setParent_self, node?_setChildren_of_ne _ hpd.symm, node?_setParent_of_ne _ hdc]
  have hothers : ∀ k, k ≠ p → k ∉ [c, d] → b.node? k = a.node? k := fun k hkp hk => by
    simp only [List.mem_cons, List.not_mem_nil, or_false, not_or] at hk
    rw [hb, node?_setParent_of_ne _ hk.2, node?_setChildren_of_ne _ hkp, node?_setParent_of_ne _ hk.1]
  have hchanged : ∀ k ∈ [c, d], ¬a.links.Below k p := by
    simp only [List.mem_cons, List.not_mem_nil, or_false, forall_eq_or_imp, forall_eq]
    exact ⟨hforest.not_below_of_child h.isChild, hdp⟩
  obtain ⟨hreshaped, hforgotten, hkept⟩ := reshaped_forgetUpward hforest (node?_lt h.node)
    (hb ▸ (length_setParent _).trans ((length_setChildren _).trans (length_setParent _))) (hb ▸ rfl) hothers
    ((parentOf_of_node? hnode).trans (parentOf_of_node? h.node).symm) hchanged
  refine ⟨b.forgetUpward p, ?_, hreshaped, ?_⟩
  · have hexpect : a.expect p = .ok n := by rw [expect, h.node]
    have hset : n.children.set before.length d = before ++ d :: after := by
      rw [h.split, List.set_append_right _ _ (Nat.le_refl _), Nat.sub_self, List.set_cons_zero]
    simp only [Arena.replaceChild, hexpect, bind, Except.bind, h.childAt_eq]
    rw [Int.toNat_natCast, hset, hb]
    rfl
  · rw [hnode, Option.map_some] at hforgotten
    have hsame := h.same_below hforest hreshaped (by
      simp only [List.mem_cons, List.not_mem_nil, or_false, forall_eq_or_imp, forall_eq]
      exact ⟨fun k hk hkc => (h.apart hforest hk .refl .refl).1 hkc, hapart⟩)
    have hcomes : (b.forgetUpward p).Stands (some p) d w := by
      refine hd.reparent hforest ((hkept d (by simp)).trans hcome) fun k hkd hk => ?_
      -- A node below the one that comes is above the place only if that one is.
      refine hreshaped.others k (fun hkp => hdp (hk.trans hkp)) ?_
      simp only [List.mem_cons, List.not_mem_nil, or_false, not_or]
      refine ⟨?_, hkd⟩
      rintro rfl
      rcases Relation.ReflTransGen.cases_tail hk with rfl | ⟨m, hm, hmc⟩
      · exact hdc rfl
      · exact hdp (hforest.parent_unique hmc h.isChild ▸ hm)
    have hsplit : before ++ d :: after = before ++ [d] ++ after := by rw [List.append_assoc]; rfl
    have hstands : (b.forgetUpward p).Stands o p (.node s (us ++ [w] ++ ws)) :=
      h.exchange hforgotten hsplit (Node.heads_forgotten ⟨h.heads.made.1, h.heads.made.2⟩
        h.heads.parent) hsame (.cons hcomes .nil)
    rwa [List.append_assoc, List.singleton_append] at hstands

end

end Slot

/-! ## 2. At a place -/

namespace Reshaped

variable {changed : List NodeId}

theorem changedAt {u u' : Tree} (h : Reshaped a b p changed)
    (hchanged : ∀ k ∈ changed, a.links.Below i k → a.links.Below p k) : ChangedAt a b i p u u' where
  above k hk hkp := .inl (h.above k hk hkp)
  apart k hik habove hbelow := h.others k habove fun hin => hbelow (hchanged k hin hik)

/-- A change below the root of a tree leaves what is not below it, besides what comes. -/
theorem outside (h : Reshaped a b p changed) (hforest : a.links.Forest a.nodes.length)
    (hi : a.parentOf i = none) (hip : a.links.Below i p) (hik : ¬a.links.Below i k)
    (hk : k ∉ changed) : b.node? k = a.node? k :=
  h.others k (fun hkp => hik (below_of_above hforest hi hip hkp)) hk

end Reshaped

/-- A tree with the root `i` has become another one with the root `i'`.  What is not below the old root is
as it was, besides a node that has come, and so are the other trees. -/
structure Became (a b : Arena) (r : TreeId) (i i' : NodeId) (t' : Tree) (come : List NodeId) : Prop where
  root : b.root? r = some i'
  stands : b.Stands none i' t'
  nodes : ∀ k, ¬a.links.Below i k → k ∉ come → b.node? k = a.node? k
  roots : ∀ r', r' ≠ r → b.root? r' = a.root? r'
  count : b.nodes.length = a.nodes.length

section Trees

variable {r : TreeId} {path : Path} {t u w : Tree} {index : Nat}

theorem root?_eq (h : b.roots = a.roots) (r : TreeId) : b.root? r = a.root? r := by
  rw [root?, root?, h]

/-- **A child taken out of a node of a tree leaves the tree without the subtree.** -/
theorem Stands.removeChild_at (hforest : a.links.Forest a.nodes.length) (hroot : a.root? r = some i)
    (h : a.Stands none i t) (hat : t.at? path = some u) (hindex : index < u.children.length)
    (hspare : u.symbol.least < u.children.length) :
    ∃ p c b, a.removeChild p index = .ok (c, b) ∧
      Became a b r i i (Tree.erase (path ++ [index]) t) [] := by
  obtain ⟨v, hv⟩ : ∃ v, u.children[index]? = some v := ⟨_, List.getElem?_eq_getElem hindex⟩
  obtain ⟨s, us, ws, rfl, rfl⟩ := Tree.exists_split hv
  obtain ⟨p, q, hip, hp, hplace⟩ := h.place hforest hat
  obtain ⟨n, before, c, after, hslot⟩ := hp.slot
  have hbefore : before.length = us.length := hslot.earlier.length_eq
  have hcount : n.children.length = (us ++ v :: ws).length := by
    rw [hslot.split, List.length_append, List.length_append, List.length_cons, List.length_cons, hbefore,
      hslot.later.length_eq]
  obtain ⟨b, hrun, hreshaped, hstands⟩ := hslot.removeChild hforest (hcount ▸ hspare)
  rw [hbefore] at hrun
  refine ⟨p, c, b, hrun, (root?_eq hreshaped.roots r).trans hroot, ?_, fun k hik _ => ?_,
    fun r' _ => root?_eq hreshaped.roots r', hreshaped.count⟩
  · rw [Tree.erase_child _ hat]
    simp only [Tree.children, Tree.withChildren, eraseIdx_split]
    refine hplace b _ (hreshaped.changedAt ?_) hstands
    exact List.forall_mem_singleton.mpr fun _ => .single hslot.isChild
  · refine hreshaped.outside hforest h.parentOf hip hik (List.mem_singleton.not.mpr ?_)
    rintro rfl
    exact hik (hip.tail hslot.isChild)

/-- **A node that comes in the place of the root is the root**, with what it stands for and without a
parent. -/
theorem Stands.replaceRoot (hforest : a.links.Forest a.nodes.length) (hroot : a.root? r = some i)
    (hd : a.Stands q d w) :
    ∃ b, a.replaceNode r (some i) (some d) = .ok b ∧ Became a b r i d w [d] := by
  refine ⟨{ a.setParent d none with roots := a.roots.set r (some d) }, ?_, ?_, ?_, ?_, ?_, ?_⟩
  · rw [replaceNode, if_pos hroot.symm, setRoot]
    rfl
  · have hr : r < a.roots.length := by
      by_contra hnot
      rw [root?, List.getElem?_eq_none (Nat.le_of_not_lt hnot), Option.join_none] at hroot
      cases hroot
    rw [root?, List.getElem?_set_self hr, Option.join_some]
  · exact hd.reparent hforest (node?_setParent_self none) fun k hkd _ => node?_setParent_of_ne none hkd
  · exact fun k _ hk => node?_setParent_of_ne none (List.mem_singleton.not.mp hk)
  · intro r' hr'
    rw [root?, root?, List.getElem?_set_ne hr'.symm]
  · exact length_setParent none

/-- **A node that comes in the place of one below the root gives a tree with another subtree.**  It is a
child of that node, or has no parent and is not the root of the tree. -/
theorem Stands.replaceNode_at (hforest : a.links.Forest a.nodes.length) (hroot : a.root? r = some i)
    (h : a.Stands none i t) (hat : t.at? (path ++ [index]) = some u) :
    ∃ p j, a.links.Below i j ∧ a.Stands (some p) j u ∧ ∀ d o w, a.Stands o d w →
      a.links.IsChild j d ∨ a.parentOf d = none ∧ d ≠ i →
      ∃ b, a.replaceNode r (some j) (some d) = .ok b ∧
        Became a b r i i (Tree.replace w (path ++ [index]) t) [d] := by
  obtain ⟨x, hx, -⟩ := Option.bind_eq_some_iff.mp ((Tree.at?_append [index] path t).symm.trans hat)
  rw [Tree.at?_concat index hx] at hat
  obtain ⟨s, us, ws, rfl, rfl⟩ := Tree.exists_split hat
  obtain ⟨p, q, hip, hp, hplace⟩ := h.place hforest hx
  obtain ⟨n, before, j, after, hslot⟩ := hp.slot
  have hbefore : before.length = us.length := hslot.earlier.length_eq
  have hij : a.links.Below i j := hip.tail hslot.isChild
  have hroot' : some j ≠ a.root? r := by
    rw [hroot]
    rintro ⟨⟩
    have hparent := h.parentOf.symm.trans hslot.stands.parentOf
    cases hparent
  have hat' : ((a.parentOf j).bind fun p => (a.indexOfChild? p j).map fun index => (p, index)) =
      some (p, us.length) := by
    have hindex : a.indexOfChild? p j = some us.length := by
      rw [indexOfChild?, childrenOf_of_node? hslot.node, hslot.split,
        idxOf?_split fun hin => hslot.not_mem hforest (List.mem_append_left _ hin), hbefore]
    rw [hslot.stands.parentOf, Option.bind_some, hindex, Option.map_some]
  refine ⟨p, j, hij, hslot.stands, fun d o w hd hcomes => ?_⟩
  obtain ⟨hdj, hdp, hapart, hinside⟩ := hslot.mayCome hforest h.parentOf hip hcomes
  obtain ⟨b, hrun, hreshaped, hstands⟩ := hslot.replaceChild hforest hd hdj hdp hapart
  rw [hbefore] at hrun
  refine ⟨b, ?_, (root?_eq hreshaped.roots r).trans hroot, ?_, fun k hik hkd => ?_,
    fun r' _ => root?_eq hreshaped.roots r', hreshaped.count⟩
  · simp only [replaceNode, if_neg hroot', hat', hrun]
    rfl
  · rw [Tree.replace_concat hx]
    refine hplace b _ (hreshaped.changedAt fun k hk hik => ?_) hstands
    rcases List.mem_cons.mp hk with rfl | hk
    · exact .single hslot.isChild
    · obtain rfl := List.mem_singleton.mp hk
      exact hinside hik
  · refine hreshaped.outside hforest h.parentOf hip hik ?_
    rw [List.mem_cons, not_or]
    exact ⟨fun hkj => hik (hkj ▸ hij), hkd⟩

/-! ## 3. One node by itself -/

/-- **A node of a tree that is altered by itself gives a tree with another node at the place**, above the
same subtrees. -/
theorem Stands.alter_at {u' : Tree} (hforest : a.links.Forest a.nodes.length)
    (hroot : a.root? r = some i) (h : a.Stands none i t) (hat : t.at? path = some u)
    (hsame : u'.children = u.children) :
    ∃ j n, a.node? j = some n ∧ n.MadeAs u ∧ n.children.length = u.children.length ∧
      ∀ f : Node → Node, f n = { n with form := (f n).form, symbol := (f n).symbol } → (f n).MadeAs u' →
        Became a (a.alter j f) r i i (Tree.replace u' path t) [] := by
  obtain ⟨j, q, hij, hj, hplace⟩ := h.place hforest hat
  obtain ⟨n, hn, hheads, hchildren⟩ := stands_iff.mp hj
  refine ⟨j, n, hn, hheads.made, hchildren.length_eq, fun f hf hmade => ?_⟩
  have hlength : u'.length = u.length := by rw [Tree.length_eq, Tree.length_eq u, hsame]
  have hdepth : u'.depth = u.depth := by rw [Tree.depth_eq, Tree.depth_eq u, hsame]
  have hother : ∀ k, k ≠ j → (a.alter j f).node? k = a.node? k := fun k hk => by
    rw [node?_alter, if_neg hk.symm]
  have hnode : (a.alter j f).node? j = some (f n) := by rw [node?_alter, if_pos rfl, hn, Option.map_some]
  have hheads' : (f n).Heads q u' := by
    refine ⟨hmade, ?_, fun k hk => ?_, fun d hd => ?_⟩
    · rw [hf]
      exact hheads.parent
    · rw [hf] at hk
      exact (hheads.length k hk).trans hlength.symm
    · rw [hf] at hd
      exact (hheads.depth d hd).trans hdepth.symm
  refine ⟨hroot, hplace _ u' ⟨fun k _ hkj => .inr ⟨hother k hkj, hlength, hdepth⟩, fun k _ hkj _ => ?_⟩ ?_,
    fun k hik _ => ?_, fun _ _ => rfl, length_alter a j f⟩
  · exact hother k fun heq => hkj (heq ▸ .refl)
  · exact hj.altered hforest hn hnode (by rw [hf]) hheads' hsame fun k hkj _ => hother k hkj
  · exact hother k fun heq => hik (heq ▸ hij)

/-- **Another symbol for a node of a tree.** -/
theorem Stands.changeSymbol_at {s : Symbol} (hforest : a.links.Forest a.nodes.length)
    (hroot : a.root? r = some i) (h : a.Stands none i t) (hat : t.at? path = some u)
    (haccepts : s.accepts u.children.length = true) :
    ∃ j b, a.changeSymbol j s = .ok b ∧ Became a b r i i (Tree.replace (u.relabel s) path t) [] := by
  have hsame : (u.relabel s).children = u.children := by cases u <;> rfl
  obtain ⟨j, n, hn, hmade, hcount, hbecame⟩ := h.alter_at hforest hroot hat hsame
  refine ⟨j, _, ?_, hbecame (fun n => { n with symbol := s }) rfl ?_⟩
  · have hexpect : a.expect j = .ok n := by rw [expect, hn]
    simp only [changeSymbol, hexpect, bind, Except.bind, hcount, haccepts, if_true]
    rfl
  · cases u <;> exact ⟨hmade.1, rfl⟩

/-- **Another value for a constant of a tree.** -/
theorem Stands.setValue_at {f : Symbol} {v : Float} (hforest : a.links.Forest a.nodes.length)
    (hroot : a.root? r = some i) (h : a.Stands none i t) (hat : t.at? path = some (.constant f v))
    (w : Float) : ∃ j, Became a (a.setValue j w) r i i (Tree.replace (.constant f w) path t) [] := by
  have hsame : (Tree.constant f w).children = (Tree.constant f v).children := rfl
  obtain ⟨j, n, -, hmade, -, hbecame⟩ := h.alter_at hforest hroot hat hsame
  refine ⟨j, hbecame _ ?_ ?_⟩
  · simp only [hmade.1]
  · simp only [hmade.1]
    exact ⟨rfl, hmade.2⟩

/-! ## 4. In a copy -/

/-- **A new tree that is changed stays one beside those that there were**, if what comes is new. -/
theorem Beside.became {a₀ : Arena} {t' : Tree} {come : List NodeId} (h : Beside a₀ a r i t)
    (hnew : ∀ k, a.links.Below i k → a₀.nodes.length ≤ k) (hb : Became a b r i j t' come)
    (hcome : ∀ k ∈ come, a₀.nodes.length ≤ k) (hj : a₀.nodes.length ≤ j) : Beside a₀ b r j t' where
  root := hb.root
  stands := hb.stands
  fresh := hj
  new := h.new
  nodes k hk := by
    rw [hb.nodes k (fun hik => Nat.not_lt_of_le (hnew k hik) hk)
      fun hin => Nat.not_lt_of_le (hcome k hin) hk, h.nodes k hk]
  roots r' hr' := by rw [hb.roots r' (Nat.ne_of_lt (Nat.lt_of_lt_of_le hr' h.new)), h.roots r' hr']

/-- In every sound arena in which a tree can be read a step makes another tree of a copy of it.  The other
tree can be read as well, its root is new and has no parent, and all that there was is as it was. -/
def CopyBecomes (step : TreeId → Arena → Arena → Prop) (t t' : Tree) : Prop :=
  ∀ (a : Arena) (r : TreeId), a.Sound → a.toTree? r = .ok (some t) →
    ∃ b i, step (a.copyTree r).1 (a.copyTree r).2 b ∧ Beside a b (a.copyTree r).1 i t' ∧
      b.toTree? (a.copyTree r).1 = .ok (some t')

/-- **What a step makes of a tree it makes of a copy of the tree**, if only nodes of the tree come to it and
it makes the tree no deeper. -/
theorem copyBecomes_of_step {t' : Tree} {step : TreeId → Arena → Arena → Prop}
    (hdepth : t'.depth ≤ t.depth)
    (hstep : ∀ {a : Arena} {r : TreeId} {i : NodeId}, a.links.Forest a.nodes.length →
      a.root? r = some i → a.Stands none i t → ∃ b j come, step r a b ∧ Became a b r i j t' come ∧
        a.links.Below i j ∧ ∀ k ∈ come, a.links.Below i k) : CopyBecomes step t t' := by
  intro a r h hread
  obtain ⟨j, hbeside, hnew⟩ := h.beside_copyTree hread
  obtain ⟨hsound, hgrown⟩ := h.copyTree r
  obtain ⟨b, i, come, hdone, hbecame, hji, hcome⟩ := hstep hsound.forest hbeside.root hbeside.stands
  have hbeside' := hbeside.became hnew hbecame (fun k hk => hnew k (hcome k hk)) (hnew i hji)
  refine ⟨b, i, hdone, hbeside', hbeside'.read ?_⟩
  obtain ⟨x, -, hread⟩ := toTree?_ok hread
  have hbound := (h.reads hread).1
  have hcount := hbecame.count
  simp only [pathBound] at hbound ⊢
  omega

end Trees

end Arena
end FormulaEvolution
