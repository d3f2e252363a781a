/-
# Nodes replaced where they stand

A tree is asked to put a node without a parent where another one stands.  It looks at its root and else at
the parent of the other node, and does not ask whether that is in the tree.  So it does what it is asked
for wherever the node stands (`Arena.replaceNode_where_it_stands`): at its own root, or below the parent,
where all else stays as it is (`TakenPlace`).  It refuses only nodes that are children of no parent that
they have, and then nothing is changed.

For a proper tree this is right for its own nodes, and for nodes that stand nowhere.  A node of another
tree, however, is replaced there, where it should be refused (`Session.replaced_elsewhere`).
-/
import FormulaEvolution.Proofs.Arena.Guards
import FormulaEvolution.Proofs.Arena.Proper

namespace FormulaEvolution
namespace Arena

variable {a b d : Arena} {k p old new : NodeId} {t u : TreeId}

/-! ## 1. Where a node stands -/

/-- A node is a child of the parent that it has. -/
def Lodged (a : Arena) (c : NodeId) : Prop := ∃ p, a.parentOf c = some p ∧ c ∈ a.childrenOf p

/-- In a proper tree all nodes but the root are lodged, below nodes of the tree. -/
theorem ProperTree.root_or_lodged (h : a.ProperTree t) (hk : a.InTree t k) :
    a.root? t = some k ∨ ∃ p, a.InTree t p ∧ a.parentOf k = some p ∧ k ∈ a.childrenOf p := by
  obtain ⟨r, hr, hrk⟩ := hk
  rcases Relation.ReflTransGen.cases_tail hrk with rfl | ⟨p, hp, hpk⟩
  · exact .inl hr
  · exact .inr ⟨p, ⟨r, hr, hp⟩, ((h r hr).linked p k (.inl hp)).mpr hpk, hpk⟩

/-- A node has come in the place of another one below its parent.  Nothing else is different but for what
the parent and the nodes above remember. -/
structure TakenPlace (a b : Arena) (p old new : NodeId) : Prop where
  place : ∃ before after, old ∉ before ∧ a.childrenOf p = before ++ old :: after ∧
    b.childrenOf p = before ++ new :: after
  children : ∀ k, k ≠ p → b.childrenOf k = a.childrenOf k
  parent : ∀ k, b.parentOf k = if k = new then some p else if k = old then none else a.parentOf k
  kind : ∀ k, (b.node? k).map (·.forgotten.alone) = (a.node? k).map (·.forgotten.alone)
  others : ∀ k, k ≠ old → k ≠ new → k ∉ a.upward p → b.node? k = a.node? k
  roots : b.roots = a.roots
  count : b.nodes.length = a.nodes.length

/-! ## 2. The three ways -/

theorem replaceNode_root (h : a.root? t = some old) (horphan : a.parentOf new = none) :
    a.replaceNode t (some old) (some new) = .ok { a with roots := a.roots.set t (some new) } := by
  rw [replaceNode, if_pos h.symm, setRoot, setParent_of_orphan horphan]

theorem replaceNode_foreign (hroot : a.root? t ≠ some old) (h : ¬a.Lodged old) :
    a.replaceNode t (some old) (some new) = .error (.invalid .foreignNode) := by
  have hplace : ((a.parentOf old).bind fun p =>
      (a.indexOfChild? p old).map fun index => (p, index)) = none := by
    cases hp : a.parentOf old with
    | none => rfl
    | some p =>
      have hnot : old ∉ a.childrenOf p := fun hin => h ⟨p, hp, hin⟩
      rw [Option.bind_some, indexOfChild?, List.idxOf?_eq_none_iff.mpr hnot, Option.map_none]
  simp only [replaceNode, if_neg (Ne.symm hroot), hplace]

/-- Above a node there is nothing new when some nodes have lost their parents. -/
theorem chain_subset (hparent : ∀ k, k ≠ new → d.parentOf k = a.parentOf k ∨ d.parentOf k = none) :
    ∀ {bound : Nat} {i : NodeId}, new ∉ a.chain bound i → ∀ k ∈ d.chain bound i, k ∈ a.chain bound i
  | 0, _, _, _, hk => hk
  | bound + 1, i, hnew, k, hk => by
    rw [chain] at hk hnew ⊢
    rw [List.mem_cons, not_or] at hnew
    rcases List.mem_cons.mp hk with rfl | hk
    · exact List.mem_cons_self
    refine List.mem_cons_of_mem i ?_
    rcases hparent i (Ne.symm hnew.1) with hsame | hnone
    · rw [hsame] at hk
      cases hp : a.parentOf i with
      | none =>
        rw [hp] at hk
        exact hk
      | some q =>
        rw [hp] at hk hnew
        exact chain_subset hparent hnew.2 k hk
    · rw [hnone] at hk
      cases hk

/-- Children are exchanged, and then those above the place forget. -/
theorem takenPlace_forgetUpward {before after : List NodeId}
    (h : Exchanged a d p before [old] [new] after) (hfirst : old ∉ before)
    (hothers : ∀ k, k ≠ p → k ≠ old → k ≠ new → d.node? k = a.node? k) (hapart : new ∉ a.upward p) :
    TakenPlace a (d.forgetUpward p) p old new := by
  have hlinks : (d.forgetUpward p).links = d.links := links_forgetAll _
  have hchildren : (d.forgetUpward p).childrenOf = d.childrenOf := congrArg Links.children hlinks
  have hparents : (d.forgetUpward p).parentOf = d.parentOf := congrArg Links.parent hlinks
  have hparent : ∀ k, d.parentOf k = if k = new then some p else if k = old then none else
      a.parentOf k := fun k => by simpa using h.parent k
  have habove : ∀ k ∈ d.upward p, k ∈ a.upward p := by
    rw [upward, upward, h.count]
    refine chain_subset (fun k hk => ?_) hapart
    rw [hparent, if_neg hk]
    split
    · exact .inr rfl
    · exact .inl rfl
  have hself : p ∈ a.upward p := by
    rw [upward, chain]
    exact List.mem_cons_self
  exact {
    place := ⟨before, after, hfirst, by simpa using h.was, by rw [hchildren, h.children, if_pos rfl]; simp⟩
    children := fun k hk => by rw [hchildren, h.children, if_neg hk]
    parent := fun k => by rw [hparents, hparent]
    kind := fun k => by
      have halone := congrArg (Option.map Node.forgotten) (h.nodes k)
      rw [Option.map_map, Option.map_map] at halone
      rw [forgetUpward, node?_forgetAll]
      split
      · rw [Option.map_map]
        exact halone
      · exact halone
    others := fun k hold hnew hk => by
      rw [forgetUpward, node?_forgetAll, if_neg fun hin => hk (habove k hin)]
      exact hothers k (fun heq => hk (heq ▸ hself)) hold hnew
    roots := (roots_forgetAll d _).trans h.roots
    count := length_forgetUpward.trans h.count }

/-- **A lodged node is replaced below its parent.** -/
theorem replaceNode_lodged (hroot : a.root? t ≠ some old) (hthere : new < a.nodes.length)
    (hp : a.parentOf old = some p) (hin : old ∈ a.childrenOf p) (hapart : new ∉ a.upward p) :
    ∃ b, a.replaceNode t (some old) (some new) = .ok b ∧ TakenPlace a b p old new := by
  obtain ⟨n, hn⟩ := exists_node? (lt_of_child hin)
  obtain ⟨before, after, hsplit, hfirst⟩ := List.eq_append_cons_of_mem hin
  have hchildren : n.children = before ++ old :: after := (childrenOf_of_node? hn).symm.trans hsplit
  have hplace : ((a.parentOf old).bind fun p =>
      (a.indexOfChild? p old).map fun index => (p, index)) = some (p, before.length) := by
    rw [hp, Option.bind_some, indexOfChild?, hsplit, idxOf?_split hfirst, Option.map_some]
  have hat : childAt n before.length = .ok old := by
    have hget : n.children[before.length]? = some old := by
      rw [hchildren, List.getElem?_append_right (Nat.le_refl _), Nat.sub_self, List.getElem?_cons_zero]
    rw [childAt, if_neg (by omega), Int.toNat_natCast, hget]
  have hexchanged := exchanged_replace (node?_lt hn) hthere (lt_of_parent hp) hsplit
  refine ⟨_, ?_, takenPlace_forgetUpward hexchanged hfirst (fun k hkp hold hnew => ?_) hapart⟩
  · have hset : n.children.set before.length new = before ++ new :: after := by
      rw [hchildren, List.set_append_right _ _ (Nat.le_refl _), Nat.sub_self, List.set_cons_zero]
    have hexpect : a.expect p = .ok n := by rw [expect, hn]
    simp only [replaceNode, if_neg (Ne.symm hroot), hplace, replaceChild, hexpect, bind, Except.bind, hat,
      Int.toNat_natCast, hset]
    rfl
  · rw [node?_setParent_of_ne _ hnew, node?_setChildren_of_ne _ hkp, node?_setParent_of_ne _ hold]

/-! ## 3. What a tree does that is asked -/

/-- A tree that is asked to put one node where another one stands does so, and this is what comes of it. -/
def Replaces (a : Arena) (t : TreeId) (old new : NodeId) (b : Arena) : Prop :=
  (Edit.replaceNode t (some old) (some new)).inSteps.run a = (.ok (), b)

/-- A tree that is asked to put one node where another one stands says that this is none of its nodes, and
nothing has been changed. -/
def Refuses (a : Arena) (t : TreeId) (old new : NodeId) : Prop :=
  (Edit.replaceNode t (some old) (some new)).inSteps.run a = (.error (.invalid .foreignNode), a) ∧
    Failure.message? (.invalid .foreignNode) = some "Node is not part of this tree"

theorem Refuses.not_replaces (h : Refuses a t old new) : ¬Replaces a t old new b := by
  intro hb
  rw [Replaces, h.1] at hb
  cases hb

section Calls

variable (hthere : new < a.nodes.length) (horphan : a.parentOf new = none)
  (hapart : ∀ p, a.parentOf old = some p → new ∉ a.upward p)

theorem replaces_root (horphan : a.parentOf new = none) (h : a.root? t = some old) :
    Replaces a t old new { a with roots := a.roots.set t (some new) } := by
  rw [Replaces, Edit.run_inSteps, Edit.apply, replaceNode_root h horphan]

theorem refuses_foreign (hroot : a.root? t ≠ some old) (h : ¬a.Lodged old) : Refuses a t old new :=
  ⟨by rw [Edit.run_inSteps, Edit.apply, replaceNode_foreign hroot h], rfl⟩

include hthere hapart

theorem replaces_lodged (hroot : a.root? t ≠ some old) (hp : a.parentOf old = some p)
    (hin : old ∈ a.childrenOf p) : ∃ b, Replaces a t old new b ∧ TakenPlace a b p old new := by
  obtain ⟨b, hb, htaken⟩ := replaceNode_lodged hroot hthere hp hin (hapart p hp)
  exact ⟨b, by rw [Replaces, Edit.run_inSteps, Edit.apply, hb], htaken⟩

include horphan

/-- **A tree does so exactly for its root and for nodes that are lodged anywhere.** -/
theorem replaces_iff : (∃ b, Replaces a t old new b) ↔ a.root? t = some old ∨ a.Lodged old := by
  by_cases hroot : a.root? t = some old
  · exact ⟨fun _ => .inl hroot, fun _ => ⟨_, replaces_root horphan hroot⟩⟩
  · rw [or_iff_right hroot]
    constructor
    · rintro ⟨b, hb⟩
      by_contra hnot
      exact (refuses_foreign hroot hnot).not_replaces hb
    · rintro ⟨p, hp, hin⟩
      obtain ⟨b, hb, -⟩ := replaces_lodged hthere hapart hroot hp hin
      exact ⟨b, hb⟩

/-- A proper tree that holds neither of the nodes looks the same. -/
theorem ProperTree.sameLooks_of_replaces (hproper : a.ProperTree u) (hold : ¬a.InTree u old)
    (hnew : ¬a.InTree u new) (hb : Replaces a t old new b) : SameLooks a b u := by
  by_cases hroot : a.root? t = some old
  · obtain rfl := (Prod.mk.inj (hb.symm.trans (replaces_root horphan hroot))).2
    have htu : t ≠ u := by
      rintro rfl
      exact hold (.root hroot)
    refine hproper.sameLooks ?_ (fun _ _ => rfl) (Nat.le_refl _)
    simp only [root?, List.getElem?_set_ne htu]
  · obtain ⟨p, hp, hin⟩ := ((replaces_iff hthere horphan hapart).mp ⟨b, hb⟩).resolve_left hroot
    obtain ⟨b', hb', htaken⟩ := replaces_lodged hthere hapart hroot hp hin
    obtain rfl := (Prod.mk.inj (hb.symm.trans hb')).2
    -- The parent and all above it are outside of the tree, as the node is.
    have hout : ¬a.InTree u p := by
      obtain ⟨n, hn, hparent⟩ := Option.bind_eq_some_iff.mp hp
      exact (hproper.shut old n hold hn).parent p hparent
    refine hproper.sameLooks (by rw [root?, root?, htaken.roots]) (fun k hk => ?_) htaken.count.ge
    refine htaken.others k ?_ ?_ fun habove => hproper.shut.not_mem_chain hout habove hk
    · rintro rfl
      exact hold hk
    · rintro rfl
      exact hnew hk

end Calls

/-- **A node is replaced where it stands, in whichever tree that is.**  The call succeeds exactly if the node
is the root of the tree or lodged anywhere.  If it is the root, the tree has the new root, and all else
is as it was; if it is lodged, the new node takes its place; otherwise the call is refused and changes
nothing.

A proper tree so replaces each of its nodes, as its root or below a parent in it, and besides each node that
is lodged elsewhere.  Proper trees that hold neither of the two nodes look the same after it. -/
theorem replaceNode_where_it_stands (a : Arena) (t : TreeId) (old new : NodeId)
    (hthere : new < a.nodes.length) (horphan : a.parentOf new = none)
    (hapart : ∀ p, a.parentOf old = some p → new ∉ a.upward p) :
    ((∃ b, Replaces a t old new b) ↔ a.root? t = some old ∨ a.Lodged old) ∧
      (a.root? t = some old → Replaces a t old new { a with roots := a.roots.set t (some new) }) ∧
      (∀ p, a.root? t ≠ some old → a.parentOf old = some p → old ∈ a.childrenOf p →
        ∃ b, Replaces a t old new b ∧ TakenPlace a b p old new) ∧
      (a.root? t ≠ some old → ¬a.Lodged old → Refuses a t old new) ∧
      (a.ProperTree t → ((∃ b, Replaces a t old new b) ↔ a.InTree t old ∨ a.Lodged old) ∧
        (a.InTree t old → a.root? t = some old ∨
          ∃ p, a.InTree t p ∧ a.parentOf old = some p ∧ old ∈ a.childrenOf p)) ∧
      ∀ u b, a.ProperTree u → ¬a.InTree u old → ¬a.InTree u new → Replaces a t old new b →
        SameLooks a b u := by
  have hiff := replaces_iff (t := t) hthere horphan hapart
  refine ⟨hiff, replaces_root horphan, fun p hroot hp hin => replaces_lodged hthere hapart hroot hp hin,
    refuses_foreign, fun hproper => ⟨?_, hproper.root_or_lodged⟩,
    fun u b hproper => hproper.sameLooks_of_replaces hthere horphan hapart⟩
  rw [hiff]
  constructor
  · exact Or.imp_left .root
  · rintro (hin | hlodged)
    · exact (hproper.root_or_lodged hin).imp_right fun ⟨p, _, hp⟩ => ⟨p, hp⟩
    · exact .inr hlodged

end Arena

namespace Session

open Arena

/-- A tree with the mean of one constant, another tree that is a constant, and a constant in no tree. -/
def twoTrees : List Step :=
  [.plain "mean" "Mean", .constant "two" 2.0 "Constant", .add (some "mean") (some "two"),
    .plant "first" (some "mean"), .constant "three" 3.0 "Constant", .plant "second" (some "three"),
    .constant "four" 4.0 "Constant"]

/-- The first tree, asked to, puts the third constant where its own one stands. -/
theorem replaced_in_mean : ∃ b, Replaces (after .short twoTrees).arena 0 1 3 b ∧
    TakenPlace (after .short twoTrees).arena b 0 1 3 := by
  have hlaw := replaceNode_where_it_stands (after .short twoTrees).arena 0 1 3
    (by decide +kernel) (by decide +kernel) fun p hp => by
      have hparent : (after .short twoTrees).arena.parentOf 1 = some 0 := by decide +kernel
      obtain rfl := Option.some.inj (hparent.symm.trans hp)
      decide +kernel
  exact hlaw.2.2.1 0 (by decide +kernel) (by decide +kernel) (by decide +kernel)

/-- The second tree, asked to, puts it there as well, though it does not hold the node that stands there: it
should have refused, and the first tree is changed. -/
theorem replaced_elsewhere : (after .short twoTrees).arena.ProperTree 1 ∧
    ¬(after .short twoTrees).arena.InTree 1 1 ∧ (after .short twoTrees).arena.parentOf 3 = none ∧
    3 ∉ (after .short twoTrees).arena.upward 1 ∧
    ∃ b, Replaces (after .short twoTrees).arena 1 1 3 b ∧
      ((after .short twoTrees).arena.treeTextOf 0).toOption = some "Mean(2)" ∧
      (b.treeTextOf 0).toOption = some "Mean(4)" := by
  have hroot : (after .short twoTrees).arena.root? 1 = some 2 := by decide +kernel
  refine ⟨fun r hr => ?_, ?_, by decide +kernel, by decide +kernel, ?_⟩
  · obtain rfl := Option.some.inj (hroot.symm.trans hr)
    exact proper_of_all [2] (by decide) (by decide +kernel) (by decide +kernel)
  · rintro ⟨r, hr, hbelow⟩
    obtain rfl := Option.some.inj (hroot.symm.trans hr)
    have hin : 1 ∈ [2] := mem_of_below (by decide) (by decide +kernel) hbelow
    exact absurd hin (by decide)
  · have hok : ((after .short twoTrees).arena.replaceNode 1 (some 1) (some 3)).toBool = true := by
      decide +kernel
    obtain ⟨b, hb⟩ := Except.ok_of_toBool hok
    have htext : (((after .short twoTrees).arena.replaceNode 1 (some 1) (some 3)).bind
        (·.treeTextOf 0)).toOption = some "Mean(4)" := by decide +kernel
    rw [hb] at htext
    exact ⟨b, by rw [Replaces, Edit.run_inSteps, Edit.apply, hb], by decide +kernel, htext⟩

end Session
end FormulaEvolution
