/-
# Arenas in order

The nodes of an arena are in order if they hang together as a forest and constants and variables have
no children and take none (`Arena.Ordered`).  The arena is sound if moreover whatever a node
remembers of its length and its depth is true (`Arena.Sound`).

Every change of an arena comes down to three: a node is altered where it stands (`Sound.alter`), a
node is added (`Sound.allocate`), and some children of a node are exchanged for others
(`Sound.exchange`).  The last one makes false what the nodes above remember, and these are the nodes
that forget (`mem_upward`).
-/
import FormulaEvolution.Arena.Change
import FormulaEvolution.Proofs.Arena.Links

namespace FormulaEvolution

/-- What a node at a place remembers is true. -/
structure Node.Truthful (l : Links) (i : NodeId) (n : Node) : Prop where
  length : ∀ k, n.knownLength = some k → k = l.size i
  depth : ∀ d, n.knownDepth = some d → l.IsHeight i d

/-- A node that remembers nothing remembers nothing false. -/
theorem Node.truthful_forgotten (l : Links) (i : NodeId) (n : Node) : n.forgotten.Truthful l i :=
  ⟨nofun, nofun⟩

theorem Node.Truthful.of_twins {l l' : Links} {i j : NodeId} {n : Node} (h : n.Truthful l i)
    (htwins : Links.Twins l l' i j) : n.Truthful l' j where
  length k hk := by rw [htwins.size, h.length k hk]
  depth d hd := htwins.isHeight.mpr (h.depth d hd)

/-- A node without its place among others. -/
def Node.alone (n : Node) : Node := { n with children := [], parent := none }

theorem Node.of_alone {n n' : Node} (h : n'.alone = n.alone) : n'.form = n.form ∧
    n'.symbol = n.symbol ∧ n'.knownLength = n.knownLength ∧ n'.knownDepth = n.knownDepth := by
  simpa [Node.alone] using h

theorem Node.Truthful.of_alone {l : Links} {i : NodeId} {n n' : Node} (h : n.Truthful l i)
    (halone : n'.alone = n.alone) : n'.Truthful l i := by
  obtain ⟨-, -, hlength, hdepth⟩ := Node.of_alone halone
  exact ⟨fun k hk => h.length k (hlength ▸ hk), fun d hd => h.depth d (hdepth ▸ hd)⟩

namespace Arena

/-! ## 1. Order -/

/-- How the nodes of an arena hang together. -/
def links (a : Arena) : Links := ⟨a.childrenOf, a.parentOf⟩

/-- Nodes in a forest, with constants and variables as leaves, and with the roots among them. -/
structure Ordered (a : Arena) : Prop where
  forest : a.links.Forest a.nodes.length
  leaves : ∀ i n, a.node? i = some n → n.form ≠ .plain → n.symbol.most = 0 ∧ n.children = []
  roots : ∀ t i, a.root? t = some i → i < a.nodes.length

/-- What a node remembers is true. -/
def Truthful (a : Arena) (i : NodeId) : Prop := ∀ n, a.node? i = some n → n.Truthful a.links i

/-- An arena in order, in which nothing that is remembered is false. -/
structure Sound (a : Arena) : Prop extends Ordered a where
  truthful : ∀ i, a.Truthful i

/-- An arena without nodes is sound. -/
theorem sound_empty : ({} : Arena).Sound := by
  have hnode : ∀ i, ({} : Arena).node? i = none := fun _ => rfl
  have hchild : ∀ p c, ¬ ({} : Arena).links.IsChild p c := fun _ _ hc => absurd hc List.not_mem_nil
  refine ⟨⟨⟨fun p c => ⟨nofun, fun hc => absurd hc (hchild p c)⟩, fun _ => List.nodup_nil,
    fun i hi => ?_, fun p c hc => absurd hc (hchild p c)⟩, fun _ _ hi => ?_, nofun⟩, fun _ _ hi => ?_⟩
  · obtain ⟨c, hc, -⟩ := Relation.TransGen.head'_iff.mp hi
    exact hchild i c hc
  · rw [hnode] at hi
    cases hi
  · rw [hnode] at hi
    cases hi

section Cells

variable {a b : Arena} {i p c : NodeId} {n : Node}

theorem childrenOf_of_node? (h : a.node? i = some n) : a.childrenOf i = n.children := by
  rw [childrenOf, h]
  rfl

theorem parentOf_of_node? (h : a.node? i = some n) : a.parentOf i = n.parent := by
  rw [parentOf, h]
  rfl

theorem node?_lt (h : a.node? i = some n) : i < a.nodes.length := (List.getElem?_eq_some_iff.mp h).1

theorem exists_node? (h : i < a.nodes.length) : ∃ n, a.node? i = some n :=
  ⟨_, List.getElem?_eq_getElem h⟩

theorem node?_of_le (h : a.nodes.length ≤ i) : a.node? i = none := List.getElem?_eq_none h

/-- Arenas with the same nodes and roots are the same. -/
theorem ext_node? (hnodes : ∀ i, a.node? i = b.node? i) (hroots : a.roots = b.roots) : a = b := by
  obtain ⟨nodes, roots⟩ := a
  obtain ⟨nodes', roots'⟩ := b
  obtain rfl : nodes = nodes' := List.ext_getElem? hnodes
  obtain rfl : roots = roots' := hroots
  rfl

/-- A node that stays as it is. -/
theorem alter_of_fixed {f : Node → Node} (h : ∀ n, a.node? i = some n → f n = n) :
    a.alter i f = a := by
  refine ext_node? (fun j => ?_) rfl
  rw [node?_alter]
  split
  · next hij =>
    subst hij
    cases hn : a.node? i with
    | none => rfl
    | some n => rw [Option.map_some, h n hn]
  · rfl

/-- A node without a parent stays as it is if it gets none. -/
theorem setParent_of_orphan (h : a.parentOf i = none) : a.setParent i none = a := by
  refine alter_of_fixed fun n hn => ?_
  rw [parentOf_of_node? hn] at h
  rw [← h]

theorem node?_setParent_self (q : Option NodeId) :
    (a.setParent c q).node? c = (a.node? c).map fun n => { n with parent := q } := by
  rw [setParent, node?_alter, if_pos rfl]

theorem node?_setParent_of_ne (q : Option NodeId) (h : i ≠ c) :
    (a.setParent c q).node? i = a.node? i := by
  rw [setParent, node?_alter, if_neg h.symm]

theorem node?_setChildren_self (cs : List NodeId) :
    (a.setChildren p cs).node? p = (a.node? p).map fun n => { n with children := cs } := by
  rw [setChildren, node?_alter, if_pos rfl]

theorem node?_setChildren_of_ne (cs : List NodeId) (h : i ≠ p) :
    (a.setChildren p cs).node? i = a.node? i := by
  rw [setChildren, node?_alter, if_neg h.symm]

@[simp] theorem childrenOf_setParent (q : Option NodeId) (j : NodeId) :
    (a.setParent c q).childrenOf j = a.childrenOf j := by
  rw [childrenOf, childrenOf, setParent, node?_alter]
  split
  · cases a.node? j <;> rfl
  · rfl

theorem parentOf_setParent (hc : c < a.nodes.length) (q : Option NodeId) (j : NodeId) :
    (a.setParent c q).parentOf j = if j = c then q else a.parentOf j := by
  rw [parentOf, parentOf, setParent, node?_alter]
  by_cases hj : c = j
  · subst hj
    obtain ⟨n, hn⟩ := exists_node? hc
    simp [hn]
  · rw [if_neg hj, if_neg (Ne.symm hj)]

theorem childrenOf_setChildren (hp : p < a.nodes.length) (cs : List NodeId) (j : NodeId) :
    (a.setChildren p cs).childrenOf j = if j = p then cs else a.childrenOf j := by
  rw [childrenOf, childrenOf, setChildren, node?_alter]
  by_cases hj : p = j
  · subst hj
    obtain ⟨n, hn⟩ := exists_node? hp
    simp [hn]
  · rw [if_neg hj, if_neg (Ne.symm hj)]

@[simp] theorem parentOf_setChildren (cs : List NodeId) (j : NodeId) :
    (a.setChildren p cs).parentOf j = a.parentOf j := by
  rw [parentOf, parentOf, setChildren, node?_alter]
  split
  · cases a.node? j <;> rfl
  · rfl

@[simp] theorem length_setParent (q : Option NodeId) :
    (a.setParent c q).nodes.length = a.nodes.length := length_alter a c _

@[simp] theorem length_setChildren (cs : List NodeId) :
    (a.setChildren p cs).nodes.length = a.nodes.length := length_alter a p _

@[simp] theorem fst_allocate (n : Node) : (a.allocate n).1 = a.nodes.length := rfl

@[simp] theorem length_allocate (n : Node) : (a.allocate n).2.nodes.length = a.nodes.length + 1 := by
  simp [allocate]

/-- A new tree has the root that it is given. -/
theorem root?_allocateTree (root : Option NodeId) :
    (a.allocateTree root).2.root? (a.allocateTree root).1 = root := by
  rw [root?, allocateTree, List.getElem?_concat_length, Option.join_some]

theorem length_forgetAll (is : List NodeId) : (a.forgetAll is).nodes.length = a.nodes.length := by
  induction is generalizing a with
  | nil => rfl
  | cons i is ih =>
    simp only [forgetAll, List.foldl_cons] at ih ⊢
    rw [ih, length_alter]

/-- Forgetting changes no place. -/
theorem links_forgetAll (is : List NodeId) : (a.forgetAll is).links = a.links := by
  have hchildren : (a.forgetAll is).childrenOf = a.childrenOf := funext fun j => by
    rw [childrenOf, childrenOf, node?_forgetAll]
    split
    · cases a.node? j <;> rfl
    · rfl
  have hparent : (a.forgetAll is).parentOf = a.parentOf := funext fun j => by
    rw [parentOf, parentOf, node?_forgetAll]
    split
    · cases a.node? j <;> rfl
    · rfl
  rw [links, links, hchildren, hparent]

end Cells

/-! ## 2. Upwards -/

section Upwards

variable {a : Arena} {i p : NodeId}

/-- With a bound on the sizes that are still to come, the chain of a node has all nodes above. -/
theorem mem_chain (h : a.links.Forest a.nodes.length) : ∀ {bound : Nat} {p : NodeId},
    p < a.nodes.length → a.nodes.length < a.links.size p + bound → a.links.Below i p →
      i ∈ a.chain bound p
  | 0, p, hp, hbound, _ => absurd (h.size_le hp) (by omega)
  | bound + 1, p, hp, hbound, hip => by
    rw [chain]
    rcases Relation.ReflTransGen.cases_tail hip with rfl | ⟨q, hiq, hqp⟩
    · exact List.mem_cons_self
    · have hparent : a.parentOf p = some q := (h.parent_iff q p).mpr hqp
      have hsize := h.size_lt hqp
      rw [hparent]
      exact List.mem_cons_of_mem p (mem_chain h (h.within q p hqp).1 (by omega) hiq)

/-- **The nodes above a node are all nodes that it is below of.** -/
theorem mem_upward (h : a.links.Forest a.nodes.length) (hp : p < a.nodes.length)
    (hip : a.links.Below i p) : i ∈ a.upward p := by
  have := h.size_pos p
  exact mem_chain h hp (by omega) hip

/-- The nodes of a chain are above the one that it starts from. -/
theorem below_of_mem_chain (h : a.links.Forest a.nodes.length) {bound : Nat}
    (hi : i ∈ a.chain bound p) : a.links.Below i p := by
  induction bound generalizing p with
  | zero => cases hi
  | succ bound ih =>
    rw [chain] at hi
    rcases List.mem_cons.mp hi with rfl | hi
    · exact .refl
    cases hparent : a.parentOf p with
    | none =>
      rw [hparent] at hi
      cases hi
    | some q =>
      rw [hparent] at hi
      exact (ih hi).tail ((h.parent_iff q p).mp hparent)

/-- The chain of a node depends on the parents of the nodes above only. -/
theorem chain_congr (h : a.links.Forest a.nodes.length) {b : Arena} (bound : Nat)
    (hsame : ∀ k, a.links.Below k p → b.parentOf k = a.parentOf k) :
    b.chain bound p = a.chain bound p := by
  induction bound generalizing p with
  | zero => rfl
  | succ bound ih =>
    rw [chain, chain, hsame p .refl]
    cases hparent : a.parentOf p with
    | none => rfl
    | some q =>
      have hchild : a.links.IsChild q p := (h.parent_iff q p).mp hparent
      simp only [ih fun k hk => hsame k (hk.tail hchild)]

/-- **The nodes that forget are those above, and all else stays as it is**, also where other nodes have got
other parents. -/
theorem node?_forgetUpward (h : a.links.Forest a.nodes.length) {b : Arena} (hp : p < a.nodes.length)
    (hcount : b.nodes.length = a.nodes.length)
    (hsame : ∀ k, a.links.Below k p → b.parentOf k = a.parentOf k) :
    (a.links.Below i p → (b.forgetUpward p).node? i = (b.node? i).map Node.forgotten) ∧
      (¬a.links.Below i p → (b.forgetUpward p).node? i = b.node? i) := by
  have hchain : b.upward p = a.upward p := by
    rw [upward, upward, hcount]
    exact chain_congr h _ hsame
  rw [forgetUpward, node?_forgetAll, hchain]
  exact ⟨fun hip => if_pos (mem_upward h hp hip), fun hnot =>
    if_neg fun hi => hnot (below_of_mem_chain h hi)⟩

end Upwards

/-! ## 3. Nodes altered in place -/

section Altering

variable {a : Arena} {i : NodeId} {f : Node → Node}

/-- Altering a node that keeps its place leaves all places. -/
theorem links_alter (hf : ∀ n, a.node? i = some n → (f n).children = n.children ∧
    (f n).parent = n.parent) : (a.alter i f).links = a.links := by
  have hnode : ∀ j, ((a.alter i f).node? j).map (fun n => (n.children, n.parent)) =
      (a.node? j).map (fun n => (n.children, n.parent)) := fun j => by
    rw [node?_alter]
    split
    · next hij =>
      subst hij
      cases hn : a.node? i with
      | none => rfl
      | some n =>
        obtain ⟨hchildren, hparent⟩ := hf n hn
        simp only [Option.map_some, hchildren, hparent]
    · rfl
  have hchildren : (a.alter i f).childrenOf = a.childrenOf := funext fun j => by
    have := hnode j
    rw [childrenOf, childrenOf]
    cases hj : a.node? j <;> cases hj' : (a.alter i f).node? j <;> simp_all
  have hparent : (a.alter i f).parentOf = a.parentOf := funext fun j => by
    have := hnode j
    rw [parentOf, parentOf]
    cases hj : a.node? j <;> cases hj' : (a.alter i f).node? j <;> simp_all
  rw [links, links, hchildren, hparent]

/-- What an altered node must be for the arena to stay sound. -/
structure Fit (l : Links) (i : NodeId) (n n' : Node) : Prop where
  children : n'.children = n.children
  parent : n'.parent = n.parent
  leaf : n'.form ≠ .plain → n'.symbol.most = 0 ∧ n'.children = []
  truthful : n'.Truthful l i

/-- **An arena stays sound if a node is altered where it stands.** -/
theorem Sound.alter (h : a.Sound) (hf : ∀ n, a.node? i = some n → Fit a.links i n (f n)) :
    (a.alter i f).Sound ∧ (a.alter i f).links = a.links := by
  have hlinks : (a.alter i f).links = a.links :=
    links_alter fun n hn => ⟨(hf n hn).children, (hf n hn).parent⟩
  refine ⟨⟨⟨?_, ?_, fun t j ht => ?_⟩, ?_⟩, hlinks⟩
  · rw [hlinks, length_alter]
    exact h.forest
  · intro j n' hj
    rw [node?_alter] at hj
    split at hj
    · next hij =>
      subst hij
      obtain ⟨n, hn, rfl⟩ := Option.map_eq_some_iff.mp hj
      exact (hf n hn).leaf
    · exact h.leaves j n' hj
  · rw [length_alter]
    exact h.roots t j ht
  · intro j n' hj
    rw [hlinks]
    rw [node?_alter] at hj
    split at hj
    · next hij =>
      subst hij
      obtain ⟨n, hn, rfl⟩ := Option.map_eq_some_iff.mp hj
      exact (hf n hn).truthful
    · exact h.truthful j n' hj

end Altering

/-! ## 4. Nodes added -/

section Adding

variable {a : Arena} {n : Node}

theorem links_allocate (hchildren : n.children = []) (hparent : n.parent = none) :
    (a.allocate n).2.links = a.links := by
  have hnew : a.node? a.nodes.length = none := node?_of_le (Nat.le_refl _)
  have hchildren : (a.allocate n).2.childrenOf = a.childrenOf := funext fun j => by
    rw [childrenOf, childrenOf, node?_allocate]
    split
    · next hj => rw [hj, hnew, Option.elim_some, hchildren, Option.elim_none]
    · rfl
  have hparent : (a.allocate n).2.parentOf = a.parentOf := funext fun j => by
    rw [parentOf, parentOf, node?_allocate]
    split
    · next hj => rw [hj, hnew, Option.bind_some, hparent, Option.bind_none]
    · rfl
  rw [links, links, hchildren, hparent]

/-- A new node by itself keeps the order, whatever it remembers. -/
theorem Ordered.allocate (h : a.Ordered) (hchildren : n.children = []) (hparent : n.parent = none)
    (hleaf : n.form ≠ .plain → n.symbol.most = 0) : (a.allocate n).2.Ordered where
  forest := by
    rw [links_allocate hchildren hparent, length_allocate]
    exact h.forest.mono (Nat.le_succ _)
  leaves j n' hj hform := by
    rw [node?_allocate] at hj
    split at hj
    · obtain rfl := Option.some.inj hj
      exact ⟨hleaf hform, hchildren⟩
    · exact h.leaves j n' hj hform
  roots t i ht := by
    rw [length_allocate]
    exact (h.roots t i ht).trans (Nat.lt_succ_self _)

theorem truthful_allocate {i : NodeId} (hi : i ≠ a.nodes.length) (h : a.Truthful i)
    (hchildren : n.children = []) (hparent : n.parent = none) : (a.allocate n).2.Truthful i := by
  intro n' hn'
  rw [node?_allocate, if_neg hi] at hn'
  rw [links_allocate hchildren hparent]
  exact h n' hn'

/-- **An arena stays sound if a new node is added.** -/
theorem Sound.allocate (h : a.Sound) (hchildren : n.children = []) (hparent : n.parent = none)
    (hleaf : n.form ≠ .plain → n.symbol.most = 0) (hforgotten : n.forgotten = n) :
    (a.allocate n).2.Sound where
  toOrdered := h.toOrdered.allocate hchildren hparent hleaf
  truthful i := by
    by_cases hi : i = a.nodes.length
    · intro n' hn'
      rw [node?_allocate, if_pos hi] at hn'
      obtain rfl := Option.some.inj hn'
      rw [← hforgotten]
      exact Node.truthful_forgotten _ i n
    · exact truthful_allocate hi (h.truthful i) hchildren hparent

end Adding

/-! ## 5. Children exchanged -/

/-- Arenas that differ in the places of nodes only. -/
structure Rearranged (a b : Arena) : Prop where
  nodes : ∀ i, (b.node? i).map Node.alone = (a.node? i).map Node.alone
  count : b.nodes.length = a.nodes.length
  roots : b.roots = a.roots

/-- Some children of a node have been exchanged for others. -/
structure Exchanged (a b : Arena) (p : NodeId) (before olds news after : List NodeId) : Prop
    extends Rearranged a b where
  was : a.childrenOf p = before ++ olds ++ after
  children : ∀ j, b.childrenOf j = if j = p then before ++ news ++ after else a.childrenOf j
  parent : ∀ j, b.parentOf j =
    if j ∈ news then some p else if j ∈ olds then none else a.parentOf j

section Exchanging

variable {a b d : Arena} {p c : NodeId} {before olds news after : List NodeId}

theorem Rearranged.trans (h : Rearranged a b) (h' : Rearranged b d) : Rearranged a d where
  nodes i := (h'.nodes i).trans (h.nodes i)
  count := h'.count.trans h.count
  roots := h'.roots.trans h.roots

theorem rearranged_alter {i : NodeId} {f : Node → Node} (hf : ∀ n, (f n).alone = n.alone) :
    Rearranged a (a.alter i f) where
  nodes j := by
    rw [node?_alter]
    split
    · cases a.node? j with
      | none => rfl
      | some n => rw [Option.map_some, Option.map_some, Option.map_some, hf]
    · rfl
  count := length_alter a i f
  roots := rfl

theorem rearranged_setParent (q : Option NodeId) : Rearranged a (a.setParent c q) :=
  rearranged_alter fun _ => rfl

theorem rearranged_setChildren (cs : List NodeId) : Rearranged a (a.setChildren p cs) :=
  rearranged_alter fun _ => rfl

/-- A node of a rearranged arena has been there before, with the same symbol and memory. -/
theorem Rearranged.node {i : NodeId} {n' : Node} (h : Rearranged a b) (hi : b.node? i = some n') :
    ∃ n, a.node? i = some n ∧ n'.alone = n.alone := by
  have hnodes := h.nodes i
  rw [hi] at hnodes
  obtain ⟨n, hn, halone⟩ := Option.map_eq_some_iff.mp hnodes.symm
  exact ⟨n, hn, halone.symm⟩

namespace Exchanged

variable (he : Exchanged a b p before olds news after)

include he

theorem links_eq (h : a.links.Forest a.nodes.length) (hp : p < a.nodes.length)
    (honce : news.Nodup) (hnews : ∀ x ∈ news, a.links.MayJoin a.nodes.length p x) :
    b.links = a.links.adopt p (before ++ news ++ after) ∧ b.links.Forest b.nodes.length := by
  obtain ⟨hforest, hparent⟩ := h.exchange hp he.was honce hnews
  have hlinks : b.links = a.links.adopt p (before ++ news ++ after) := by
    have hchildren : b.childrenOf = (a.links.adopt p (before ++ news ++ after)).children :=
      funext he.children
    have hparents : b.parentOf = (a.links.adopt p (before ++ news ++ after)).parent :=
      funext fun j => (he.parent j).trans (hparent j).symm
    rw [links, hchildren, hparents]
  refine ⟨hlinks, ?_⟩
  rw [hlinks, he.count]
  exact hforest

/-- An exchange keeps the order, and what nodes remember that are not above it. -/
theorem ordered (h : a.Ordered) (hp : ∃ n, a.node? p = some n ∧ n.form = .plain)
    (honce : news.Nodup) (hnews : ∀ x ∈ news, a.links.MayJoin a.nodes.length p x) :
    b.Ordered ∧ ∀ i, ¬ b.links.Below i p → a.Truthful i → b.Truthful i := by
  obtain ⟨n, hn, hplain⟩ := hp
  obtain ⟨hlinks, hforest⟩ := he.links_eq h.forest (node?_lt hn) honce hnews
  refine ⟨⟨hforest, fun i n' hi hform => ?_, fun t i ht => ?_⟩, fun i hnot htruth n' hi => ?_⟩
  · obtain ⟨m, hm, halone⟩ := he.toRearranged.node hi
    obtain ⟨hform', hsymbol, -, -⟩ := Node.of_alone halone
    have hip : i ≠ p := by
      rintro rfl
      obtain rfl := Option.some.inj (hm.symm.trans hn)
      exact hform (hform'.trans hplain)
    obtain ⟨hmost, hchildren⟩ := h.leaves i m hm (hform' ▸ hform)
    rw [hsymbol]
    refine ⟨hmost, ?_⟩
    rw [← childrenOf_of_node? hi, he.children, if_neg hip, childrenOf_of_node? hm, hchildren]
  · rw [he.count]
    refine h.roots t i ?_
    rwa [root?, ← he.roots]
  · obtain ⟨m, hm, halone⟩ := he.toRearranged.node hi
    rw [hlinks] at hnot ⊢
    exact ((htruth m hm).of_alone halone).of_twins (Links.Forest.agreesBelow_adopt hnot).symm.twins

/-- **An arena stays sound if children are exchanged and all above forget.** -/
theorem sound (h : a.Sound) (hp : ∃ n, a.node? p = some n ∧ n.form = .plain)
    (honce : news.Nodup) (hnews : ∀ x ∈ news, a.links.MayJoin a.nodes.length p x) :
    (b.forgetUpward p).Sound := by
  obtain ⟨hordered, htruthful⟩ := he.ordered h.toOrdered hp honce hnews
  have hlt : p < b.nodes.length := by
    rw [he.count]
    exact node?_lt hp.choose_spec.1
  have hlinks : (b.forgetUpward p).links = b.links := links_forgetAll _
  refine ⟨⟨?_, fun i n hi hform => ?_, fun t i ht => ?_⟩, fun i n hi => ?_⟩
  · rw [hlinks, forgetUpward, length_forgetAll]
    exact hordered.forest
  · rw [forgetUpward, node?_forgetAll] at hi
    split at hi
    · obtain ⟨m, hm, rfl⟩ := Option.map_eq_some_iff.mp hi
      exact hordered.leaves i m hm hform
    · exact hordered.leaves i n hi hform
  · rw [forgetUpward, length_forgetAll]
    refine hordered.roots t i ?_
    rwa [root?, forgetUpward, roots_forgetAll] at ht
  · rw [hlinks]
    rw [forgetUpward, node?_forgetAll] at hi
    split at hi
    · obtain ⟨m, -, rfl⟩ := Option.map_eq_some_iff.mp hi
      exact Node.truthful_forgotten _ i m
    · next hnot =>
      have hapart : ¬ b.links.Below i p := fun hip => hnot (mem_upward hordered.forest hlt hip)
      exact htruthful i hapart (h.truthful i) n hi

end Exchanged

end Exchanging

end Arena
end FormulaEvolution
