/-
# Nodes that stand for trees

A node stands for a tree (`Arena.Stands`) if it was made as the root is, its children stand for the
subtrees, each of them knows it as its parent, and what it remembers is the length and the depth of the
tree.  In a sound arena these are the trees that are read from it (`Sound.reads`, `Stands.read`).

A change below a node is told by what the node stands for then.  Nodes that are neither above nor below
the place stay as they are, those above it forget or remember what is still true, and so the node stands
for the tree with something else at the place (`Stands.place`).
-/
import FormulaEvolution.Proofs.Arena.Change
import FormulaEvolution.Proofs.Tree.Grafting

namespace FormulaEvolution

/-! ## 1. Standing for a tree -/

/-- A node was made as the root of a tree is, and has its symbol. -/
def Node.MadeAs (n : Node) : Tree → Prop
  | .constant s v => n.form = .constant v ∧ n.symbol = s
  | .variable s => n.form = .variable ∧ n.symbol = s
  | .node s _ => n.form = .plain ∧ n.symbol = s

theorem Node.MadeAs.congr {n n' : Node} {t : Tree} (h : n.MadeAs t) (hform : n'.form = n.form)
    (hsymbol : n'.symbol = n.symbol) : n'.MadeAs t := by
  cases t <;> exact ⟨hform.trans h.1, hsymbol.trans h.2⟩

/-- A node by itself is the root of a tree: it was made so, has a given parent, and what it remembers is
true of the tree. -/
structure Node.Heads (n : Node) (parent : Option NodeId) (t : Tree) : Prop where
  made : n.MadeAs t
  parent : n.parent = parent
  length : ∀ k, n.knownLength = some k → k = t.length
  depth : ∀ d, n.knownDepth = some d → d = t.depth

/-- A node that has forgotten heads every tree that it was made as the root of. -/
theorem Node.heads_forgotten {n : Node} {parent : Option NodeId} {t : Tree} (hmade : n.MadeAs t)
    (hparent : n.parent = parent) : n.forgotten.Heads parent t :=
  ⟨hmade.congr rfl rfl, hparent, nofun, nofun⟩

namespace Arena

mutual

/-- A node stands for a tree, below a given parent or without one. -/
def Stands (a : Arena) (parent : Option NodeId) (i : NodeId) : Tree → Prop
  | .constant s v => ∃ n, a.node? i = some n ∧ n.Heads parent (.constant s v) ∧ n.children = []
  | .variable s => ∃ n, a.node? i = some n ∧ n.Heads parent (.variable s) ∧ n.children = []
  | .node s cs => ∃ n, a.node? i = some n ∧ n.Heads parent (.node s cs) ∧ StandAll a i n.children cs

/-- The children of a node stand for trees. -/
def StandAll (a : Arena) (p : NodeId) : List NodeId → List Tree → Prop
  | [], [] => True
  | i :: is, c :: cs => Stands a (some p) i c ∧ StandAll a p is cs
  | _, _ => False

end

variable {a b : Arena} {i j p : NodeId} {q r : Option NodeId} {t u : Tree}

theorem standAll_iff {is : List NodeId} {cs : List Tree} :
    StandAll a p is cs ↔ List.Forall₂ (a.Stands (some p)) is cs := by
  induction cs generalizing is with
  | nil => cases is <;> simp [StandAll]
  | cons c cs ih => cases is <;> simp [StandAll, ih]

/-- **A node stands for a tree if it heads it and its children stand for the subtrees.** -/
theorem stands_iff : a.Stands q i t ↔ ∃ n, a.node? i = some n ∧ n.Heads q t ∧
    List.Forall₂ (a.Stands (some i)) n.children t.children := by
  cases t with
  | constant s v => simp only [Stands, Tree.children, List.forall₂_nil_right_iff]
  | «variable» s => simp only [Stands, Tree.children, List.forall₂_nil_right_iff]
  | node s cs => simp only [Stands, Tree.children, standAll_iff]

/-! ## 2. What it depends on -/

theorem isChild_of_node? {c : NodeId} {n : Node} (hn : a.node? p = some n) (hc : c ∈ n.children) :
    a.links.IsChild p c := by
  rw [← childrenOf_of_node? hn] at hc
  exact hc

theorem Stands.parentOf (h : a.Stands q i t) : a.parentOf i = q := by
  obtain ⟨n, hn, hheads, -⟩ := stands_iff.mp h
  rw [parentOf_of_node? hn, hheads.parent]

/-- **What a node stands for depends on it and the nodes below it.** -/
theorem Stands.of_same {q : Option NodeId} {i : NodeId} {t : Tree} (h : a.Stands q i t)
    (hsame : ∀ k, a.links.Below i k → b.node? k = a.node? k) : b.Stands q i t := by
  obtain ⟨n, hn, hheads, hchildren⟩ := stands_iff.mp h
  refine stands_iff.mpr ⟨n, (hsame i .refl).trans hn, hheads, ?_⟩
  refine forall₂_imp_of_mem hchildren fun c u hc hu hstands => ?_
  have hsmaller := Tree.sizeOf_lt_of_mem_children hu
  exact hstands.of_same fun k hk => hsame k (.head (isChild_of_node? hn hc) hk)
termination_by sizeOf t

/-- A node stands for the same tree in an arena that has grown. -/
theorem Stands.of_frame {q : Option NodeId} {i : NodeId} {t : Tree} (h : a.Stands q i t)
    (hframe : ∀ k, k < a.nodes.length → b.node? k = a.node? k) : b.Stands q i t := by
  obtain ⟨n, hn, hheads, hchildren⟩ := stands_iff.mp h
  refine stands_iff.mpr ⟨n, (hframe i (node?_lt hn)).trans hn, hheads, ?_⟩
  refine forall₂_imp_of_mem hchildren fun c u _ hu hstands => ?_
  have hsmaller := Tree.sizeOf_lt_of_mem_children hu
  exact hstands.of_frame hframe
termination_by sizeOf t

/-- **A node that is altered by itself stands for a tree with the same subtrees**, if it heads that. -/
theorem Stands.altered {n n' : Node} (hforest : a.links.Forest a.nodes.length) (h : a.Stands q i t)
    (hn : a.node? i = some n) (hn' : b.node? i = some n') (hkept : n'.children = n.children)
    (hheads : n'.Heads r u) (hsame : u.children = t.children)
    (hbelow : ∀ k, k ≠ i → a.links.Below i k → b.node? k = a.node? k) : b.Stands r i u := by
  obtain ⟨m, hm, -, hchildren⟩ := stands_iff.mp h
  obtain rfl := Option.some.inj (hm.symm.trans hn)
  refine stands_iff.mpr ⟨n', hn', hheads, ?_⟩
  rw [hkept, hsame]
  refine forall₂_imp_of_mem hchildren fun c v hc _ hv => hv.of_same fun k hk => ?_
  have hchild := isChild_of_node? hn hc
  refine hbelow k ?_ (.head hchild hk)
  rintro rfl
  exact hforest.not_below_of_child hchild hk

/-- Under another parent a node stands for the same tree. -/
theorem Stands.reparent (hforest : a.links.Forest a.nodes.length) (h : a.Stands q i t)
    (htop : b.node? i = (a.node? i).map fun n => { n with parent := r })
    (hbelow : ∀ k, k ≠ i → a.links.Below i k → b.node? k = a.node? k) : b.Stands r i t := by
  obtain ⟨n, hn, hheads, -⟩ := stands_iff.mp h
  rw [hn, Option.map_some] at htop
  exact h.altered hforest hn htop rfl
    ⟨hheads.made.congr rfl rfl, rfl, hheads.length, hheads.depth⟩ rfl hbelow

/-! ## 3. What is read from an arena -/

theorem greatestDepth_eq (cs : List Tree) (start : Nat) :
    (cs.map Tree.depth).foldl max start = max start (Tree.greatestDepth cs) := by
  induction cs generalizing start with
  | nil => rw [List.map_nil, List.foldl_nil, Tree.greatestDepth, Nat.max_zero]
  | cons c cs ih => rw [List.map_cons, List.foldl_cons, ih, Tree.greatestDepth, Nat.max_assoc]

theorem totalLength_eq {size : NodeId → Nat} {is : List NodeId} {cs : List Tree}
    (h : List.Forall₂ (fun i c => size i = c.length) is cs) :
    (is.map size).sum = Tree.totalLength cs := by
  induction h with
  | nil => rfl
  | cons hc _ ih => rw [List.map_cons, List.sum_cons, hc, ih, Tree.totalLength]

/-- A node from which a tree is read was made as its root is, and its children are those from which the
subtrees are read. -/
theorem Ordered.read_children (h : a.Ordered) {bound : Nat}
    (hread : a.toTreeWithin (bound + 1) i = .ok t) : ∃ n, a.node? i = some n ∧ n.MadeAs t ∧
      List.Forall₂ (fun c u => a.toTreeWithin bound c = .ok u) n.children t.children := by
  obtain ⟨n, hexpect, hread⟩ := Except.bind_ok hread
  have hn := node?_of_expect hexpect
  refine ⟨n, hn, ?_⟩
  cases hform : n.form with
  | constant value =>
    simp only [hform] at hread
    cases hread
    rw [(h.leaves i n hn (by rw [hform]; nofun)).2]
    exact ⟨⟨hform, rfl⟩, .nil⟩
  | «variable» =>
    simp only [hform] at hread
    cases hread
    rw [(h.leaves i n hn (by rw [hform]; nofun)).2]
    exact ⟨⟨hform, rfl⟩, .nil⟩
  | plain =>
    simp only [hform] at hread
    obtain ⟨cs, hcs, hread⟩ := Except.bind_ok hread
    cases hread
    exact ⟨⟨hform, rfl⟩, mapM_ok_iff.mp hcs⟩

/-- **The tree that a node stands for is read from it**, with a bound of its depth. -/
theorem Stands.read {bound : Nat} (h : a.Stands q i t) (hbound : t.depth ≤ bound) :
    a.toTreeWithin bound i = .ok t := by
  induction bound generalizing q i t with
  | zero => exact absurd t.depth_pos (by omega)
  | succ bound ih =>
    obtain ⟨n, hn, hheads, hchildren⟩ := stands_iff.mp h
    have hexpect : a.expect i = .ok n := by rw [expect, hn]
    have hreads : n.children.mapM (a.toTreeWithin bound) = .ok t.children := by
      refine mapM_ok_iff.mpr (forall₂_imp_of_mem hchildren fun c u _ hu hc => ih hc ?_)
      have hsmaller := (Tree.child_lt hu).2
      omega
    cases t with
    | constant s v =>
      obtain ⟨hform, rfl⟩ := hheads.made
      simp only [toTreeWithin, hexpect, bind, Except.bind, hform]
      rfl
    | «variable» s =>
      obtain ⟨hform, rfl⟩ := hheads.made
      simp only [toTreeWithin, hexpect, bind, Except.bind, hform]
      rfl
    | node s cs =>
      obtain ⟨hform, rfl⟩ := hheads.made
      simp only [toTreeWithin, hexpect, bind, Except.bind, hform, hreads]
      rfl

/-- A node from which a tree is read, with the tree. -/
structure Reads (a : Arena) (i : NodeId) (t : Tree) : Prop where
  stands : a.Stands (a.parentOf i) i t
  size : a.links.size i = t.length
  height : a.links.IsHeight i t.depth

/-- **In a sound arena a node stands for the tree that is read from it**, and this is as long and as deep
as what is below the node. -/
theorem Sound.reads (h : a.Sound) {bound : Nat} (hread : a.toTreeWithin bound i = .ok t) :
    t.depth ≤ bound ∧ a.Reads i t := by
  induction bound generalizing i t with
  | zero => cases hread
  | succ bound ih =>
    obtain ⟨n, hn, hmade, hchildren⟩ := h.read_children hread
    have hbelow : a.links.children i = n.children := childrenOf_of_node? hn
    have hreads : List.Forall₂ a.Reads n.children t.children :=
      hchildren.imp fun c u hc => (ih hc).2
    have hsize : a.links.size i = t.length := by
      rw [h.forest.size_eq, hbelow, Tree.length_eq,
        totalLength_eq (hreads.imp fun c u hc => hc.size)]
    have hheight : a.links.IsHeight i t.depth := by
      rw [Tree.depth_eq, ← Nat.zero_max (Tree.greatestDepth _), ← greatestDepth_eq]
      refine Links.isHeight_of_children ?_
      rw [hbelow, List.forall₂_map_right_iff]
      exact hreads.imp fun c u hc => hc.height
    refine ⟨?_, stands_iff.mpr ⟨n, hn, ⟨hmade, (parentOf_of_node? hn).symm, ?_, ?_⟩, ?_⟩, hsize, hheight⟩
    · have hdepth : Tree.greatestDepth t.children ≤ bound :=
        Tree.greatestDepth_le fun u hu => by
          obtain ⟨c, -, hc⟩ := exists_of_forall₂ hchildren hu
          exact (ih hc).1
      rw [Tree.depth_eq]
      omega
    · intro k hk
      rw [(h.truthful i n hn).length k hk, hsize]
    · intro d hd
      exact ((h.truthful i n hn).depth d hd).unique hheight
    · refine forall₂_imp_of_mem hreads fun c u hc _ hread => ?_
      have hparent : a.parentOf c = some i := (h.forest.parent_iff i c).mpr (isChild_of_node? hn hc)
      rw [← hparent]
      exact hread.stands

/-- A tree that is read is read from its root. -/
theorem toTree?_ok {r : TreeId} (h : a.toTree? r = .ok (some t)) :
    ∃ i, a.root? r = some i ∧ a.toTreeWithin a.pathBound i = .ok t := by
  unfold toTree? at h
  split at h
  · cases h
  · next i hroot =>
    refine ⟨i, hroot, ?_⟩
    unfold toTree at h
    cases hread : a.toTreeWithin a.pathBound i with
    | error failure =>
      rw [hread] at h
      cases h
    | ok u =>
      rw [hread] at h
      cases h
      rfl

/-! ## 4. One child of a node -/

/-- A child of a node that stands for a tree, among the others, with the subtrees that they stand for. -/
structure Slot (a : Arena) (q : Option NodeId) (p : NodeId) (n : Node) (before : List NodeId)
    (c : NodeId) (after : List NodeId) (s : Symbol) (us : List Tree) (v : Tree) (ws : List Tree) :
    Prop where
  node : a.node? p = some n
  heads : n.Heads q (.node s (us ++ v :: ws))
  split : n.children = before ++ c :: after
  earlier : List.Forall₂ (a.Stands (some p)) before us
  stands : a.Stands (some p) c v
  later : List.Forall₂ (a.Stands (some p)) after ws

/-- **Each subtree of a tree has a child of the node that stands for the tree.** -/
theorem Stands.slot {s : Symbol} {us ws : List Tree} {v : Tree}
    (h : a.Stands q p (.node s (us ++ v :: ws))) :
    ∃ n before c after, Slot a q p n before c after s us v ws := by
  obtain ⟨n, hn, hheads, hchildren⟩ := stands_iff.mp h
  obtain ⟨before, c, after, hsplit, hearlier, hc, hlater⟩ := split_of_forall₂ hchildren
  exact ⟨n, before, c, after, hn, hheads, hsplit, hearlier, hc, hlater⟩

namespace Slot

variable {n : Node} {before after news : List NodeId} {c m k : NodeId} {s : Symbol}
  {us vs ws : List Tree} {v : Tree}

section

variable (h : Slot a q p n before c after s us v ws)

include h

theorem isChild : a.links.IsChild p c := isChild_of_node? h.node (by simp [h.split])

theorem isChild_of_mem (hk : k ∈ before ++ after) : a.links.IsChild p k := by
  refine isChild_of_node? h.node ?_
  rw [h.split]
  simp only [List.mem_append, List.mem_cons] at hk ⊢
  tauto

theorem not_mem (hforest : a.links.Forest a.nodes.length) : c ∉ before ++ after := by
  have honce := hforest.once p
  rw [show a.links.children p = _ from (childrenOf_of_node? h.node).trans h.split, List.nodup_middle,
    List.nodup_cons] at honce
  exact honce.1

/-- What is below another child is neither above nor below what is below this one. -/
theorem apart (hforest : a.links.Forest a.nodes.length) (hk : k ∈ before ++ after)
    (hm : a.links.Below k m) (hj : a.links.Below c j) : ¬a.links.Below m j ∧ ¬a.links.Below j m := by
  have hne : k ≠ c := fun heq => h.not_mem hforest (heq ▸ hk)
  have hk' := h.isChild_of_mem hk
  exact ⟨fun hmj => hforest.siblings_apart hk' h.isChild hne (hm.trans hmj) hj,
    fun hjm => hforest.siblings_apart hk' h.isChild hne hm (hj.trans hjm)⟩

/-- **With others in the place of a child the node stands for the tree with others in the place of the
subtree**, if it heads that and nothing has changed below the other children. -/
theorem exchange {n' : Node} (hnode : b.node? p = some n') (hsplit : n'.children = before ++ news ++ after)
    (hheads : n'.Heads q (.node s (us ++ vs ++ ws)))
    (hsame : ∀ k ∈ before ++ after, ∀ m, a.links.Below k m → b.node? m = a.node? m)
    (hnews : List.Forall₂ (b.Stands (some p)) news vs) : b.Stands q p (.node s (us ++ vs ++ ws)) := by
  refine stands_iff.mpr ⟨n', hnode, hheads, ?_⟩
  rw [hsplit]
  refine List.rel_append (List.rel_append ?_ hnews) ?_
  · exact forall₂_imp_of_mem h.earlier fun k u hk _ hu =>
      hu.of_same (hsame k (List.mem_append_left _ hk))
  · exact forall₂_imp_of_mem h.later fun k u hk _ hu =>
      hu.of_same (hsame k (List.mem_append_right _ hk))

end

end Slot

/-! ## 5. A change below -/

/-- Below a node another one has been changed, with what is below it, and has come to stand for another
tree.  The nodes above have forgotten, or are as they were and what they remember is still true; and those
apart from it are as they were. -/
structure ChangedAt (a b : Arena) (i j : NodeId) (u u' : Tree) : Prop where
  above : ∀ k, a.links.Below k j → k ≠ j → b.node? k = (a.node? k).map Node.forgotten ∨
    b.node? k = a.node? k ∧ u'.length = u.length ∧ u'.depth = u.depth
  apart : ∀ k, a.links.Below i k → ¬a.links.Below k j → ¬a.links.Below j k → b.node? k = a.node? k

/-- A node that has forgotten, or remembers what is still true, heads a tree with another subtree. -/
theorem ChangedAt.heads {s : Symbol} {us ws : List Tree} {c u' : Tree} {path : Path} {n : Node}
    (h : ChangedAt a b i j u u') (hat : c.at? path = some u) (hij : a.links.Below i j) (hne : i ≠ j)
    (hn : a.node? i = some n) (hheads : n.Heads q (.node s (us ++ c :: ws))) :
    ∃ n', b.node? i = some n' ∧ n'.children = n.children ∧
      n'.Heads q (.node s (us ++ [Tree.replace u' path c] ++ ws)) := by
  rw [List.append_assoc, List.singleton_append]
  rcases h.above i hij hne with hforgotten | ⟨hkept, hlength, hdepth⟩
  · rw [hn, Option.map_some] at hforgotten
    exact ⟨_, hforgotten, rfl, Node.heads_forgotten ⟨hheads.made.1, hheads.made.2⟩ hheads.parent⟩
  · refine ⟨n, hkept.trans hn, rfl, hheads.made, hheads.parent, fun k hk => ?_, fun d hd => ?_⟩
    · have hsame := Tree.length_replace u' hat
      rw [hheads.length k hk]
      simp only [Tree.length, Tree.totalLength_append, Tree.totalLength]
      omega
    · rw [hheads.depth d hd]
      simp only [Tree.depth, Tree.greatestDepth_append, Tree.greatestDepth,
        Tree.depth_replace_eq hat hdepth]

/-- **A change at a node changes the tree at a place.**  Below a node that stands for a tree there is one
for each place, which stands for what the tree has there.  If that one comes to stand for something else,
so does the tree at the place. -/
theorem Stands.place (hforest : a.links.Forest a.nodes.length) {path : Path} (h : a.Stands q i t)
    (hat : t.at? path = some u) :
    ∃ j r, a.links.Below i j ∧ a.Stands r j u ∧
      ∀ b u', ChangedAt a b i j u u' → b.Stands r j u' → b.Stands q i (Tree.replace u' path t) := by
  revert i q
  refine Tree.at?_induction (motive := fun path t => ∀ {q i}, a.Stands q i t →
    ∃ j r, a.links.Below i j ∧ a.Stands r j u ∧
      ∀ b u', ChangedAt a b i j u u' → b.Stands r j u' → b.Stands q i (Tree.replace u' path t)) ?_ ?_ hat
  · intro q i h
    exact ⟨i, q, .refl, h, fun b u' _ hb => hb⟩
  · intro s before c after path hc ih q i h
    obtain ⟨n, is, k, js, hslot⟩ := h.slot
    obtain ⟨j, r, hbelow, hj, hplace⟩ := ih hslot.stands
    have hij : a.links.Below i j := .head hslot.isChild hbelow
    have hne : i ≠ j := by
      rintro rfl
      exact hforest.not_below_of_child hslot.isChild hbelow
    refine ⟨j, r, hij, hj, fun b u' hb hu' => ?_⟩
    obtain ⟨n', hn', hkept, hheads⟩ := hb.heads hc hij hne hslot.node hslot.heads
    have hchild : ChangedAt a b k j u u' :=
      ⟨hb.above, fun m hm => hb.apart m (.head hslot.isChild hm)⟩
    have hsame : ∀ x ∈ is ++ js, ∀ m, a.links.Below x m → b.node? m = a.node? m := fun x hx m hm => by
      obtain ⟨habove, hbelow'⟩ := hslot.apart hforest hx hm hbelow
      exact hb.apart m (.head (hslot.isChild_of_mem hx) hm) habove hbelow'
    have hsplit : n'.children = is ++ [k] ++ js := by
      rw [hkept, hslot.split, List.append_assoc, List.singleton_append]
    have hstands := hslot.exchange hn' hsplit hheads hsame (.cons (hplace b u' hchild hu') .nil)
    rwa [List.append_assoc, List.singleton_append, ← Tree.replace_cons] at hstands

end Arena
end FormulaEvolution
