/-
# Trees planted in an arena

A tree that is planted becomes a new node without a parent, with new nodes below it, and leaves the
nodes that there were alone (`Sound.plant`).  The new node stands for the tree (`stands_plant`), so that every
tree whose nodes are of the sort that their symbols ask for can be read from some sound arena
(`exists_read`).

While children are being planted their parent does not have them yet, so that the arena is in order
in between only if they are taken to have none.  This is no matter for those that are planted next:
planting takes no notice of what is altered at other nodes (`plant_alter`), so the parents may as well
be given when all are there.
-/
import FormulaEvolution.Proofs.Arena.Standing
import FormulaEvolution.Proofs.Tree.Document

namespace FormulaEvolution

namespace Arena

variable {a b : Arena} {i j p : NodeId} {n : Node}

/-! ## 1. Alterations apart from each other -/

theorem alter_comm (hij : i ≠ j) (f g : Node → Node) :
    (a.alter i f).alter j g = (a.alter j g).alter i f := by
  refine ext_node? (fun k => ?_) rfl
  simp only [node?_alter]
  by_cases hi : i = k
  · have hj : ¬ j = k := fun hj => hij (hi.trans hj.symm)
    simp only [if_pos hi, if_neg hj]
  · simp only [if_neg hi]

theorem alter_alter (f g : Node → Node) : (a.alter i f).alter i g = a.alter i (g ∘ f) := by
  refine ext_node? (fun k => ?_) rfl
  simp only [node?_alter]
  split
  · rw [Option.map_map]
  · rfl

theorem allocate_alter (hj : j < a.nodes.length) (f : Node → Node) (n : Node) :
    (a.alter j f).allocate n = ((a.allocate n).1, (a.allocate n).2.alter j f) := by
  refine Prod.ext (length_alter a j f) (ext_node? (fun k => ?_) rfl)
  rw [node?_allocate, node?_alter, node?_alter, node?_allocate, length_alter]
  by_cases hk : k = a.nodes.length
  · have hjk : j ≠ k := hk ▸ Nat.ne_of_lt hj
    rw [if_pos hk, if_neg hjk, if_pos hk]
  · rw [if_neg hk, if_neg hk]

mutual

/-- There are as many new nodes as the tree has. -/
theorem length_plant (q : Option NodeId) : ∀ (a : Arena) (t : Tree),
    (a.plant q t).2.nodes.length = a.nodes.length + t.length
  | a, .constant .. => by rw [plant, length_allocate, Tree.length]
  | a, .variable .. => by rw [plant, length_allocate, Tree.length]
  | a, .node s cs => by
    rw [plant, Tree.length]
    have := length_plantAll (a.allocate { form := .plain, symbol := s, parent := q }).1
      (a.allocate { form := .plain, symbol := s, parent := q }).2 cs
    rw [length_allocate] at this
    rw [length_setChildren]
    omega

theorem length_plantAll (p : NodeId) : ∀ (a : Arena) (cs : List Tree),
    (a.plantAll p cs).2.nodes.length = a.nodes.length + Tree.totalLength cs
  | a, [] => rfl
  | a, c :: cs => by
    have hfirst := length_plant (some p) a c
    have hrest := length_plantAll p (a.plant (some p) c).2 cs
    rw [plantAll, Tree.totalLength, ← Nat.add_assoc, ← hfirst]
    exact hrest

end

/-- The new nodes come after those that there were. -/
theorem length_plant_le (q : Option NodeId) (a : Arena) (t : Tree) :
    a.nodes.length ≤ (a.plant q t).2.nodes.length := by
  rw [length_plant]
  exact Nat.le_add_right _ _

theorem length_plantAll_le (p : NodeId) (a : Arena) (cs : List Tree) :
    a.nodes.length ≤ (a.plantAll p cs).2.nodes.length := by
  rw [length_plantAll]
  exact Nat.le_add_right _ _

mutual

/-- Planting takes no notice of what is altered at nodes that there are already. -/
theorem plant_alter {j : NodeId} (f : Node → Node) (q : Option NodeId) : ∀ (a : Arena) (t : Tree),
    j < a.nodes.length →
      (a.alter j f).plant q t = ((a.plant q t).1, (a.plant q t).2.alter j f)
  | a, .constant .., hj => by rw [plant, plant, allocate_alter hj]
  | a, .variable .., hj => by rw [plant, plant, allocate_alter hj]
  | a, .node s cs, hj => by
    rw [plant, plant, allocate_alter hj]
    have hlt : j < (a.allocate { form := .plain, symbol := s, parent := q }).2.nodes.length := by
      rw [length_allocate]
      exact Nat.lt_succ_of_lt hj
    have hne : j ≠ (a.allocate { form := .plain, symbol := s, parent := q }).1 := Nat.ne_of_lt hj
    simp only [plantAll_alter f _ _ cs hlt, setChildren]
    rw [alter_comm hne]

theorem plantAll_alter {j : NodeId} (f : Node → Node) (p : NodeId) : ∀ (a : Arena) (cs : List Tree),
    j < a.nodes.length →
      (a.alter j f).plantAll p cs = ((a.plantAll p cs).1, (a.plantAll p cs).2.alter j f)
  | a, [], _ => rfl
  | a, c :: cs, hj => by
    rw [plantAll, plantAll, plant_alter f (some p) a c hj]
    simp only [plantAll_alter f p _ cs (hj.trans_le (length_plant_le (some p) a c))]

end

/-- **Planting below a parent is planting, and then giving the parent.** -/
theorem plant_some (a : Arena) (p : NodeId) (t : Tree) : a.plant (some p) t =
    ((a.plant none t).1, (a.plant none t).2.setParent (a.plant none t).1 (some p)) := by
  have hshell : ∀ n : Node, a.allocate { n with parent := some p } =
      ((a.allocate n).1, (a.allocate n).2.setParent (a.allocate n).1 (some p)) := fun n => by
    refine Prod.ext rfl (ext_node? (fun k => ?_) rfl)
    rw [setParent, node?_alter, node?_allocate, node?_allocate, fst_allocate]
    by_cases hk : k = a.nodes.length
    · rw [if_pos hk, if_pos hk, if_pos hk.symm]
      rfl
    · rw [if_neg hk, if_neg hk, if_neg (Ne.symm hk)]
  cases t with
  | constant s v => exact hshell { form := .constant v, symbol := s }
  | «variable» s => exact hshell { form := .variable, symbol := s }
  | node s cs =>
    rw [plant, plant, hshell { form := .plain, symbol := s }]
    have hlt : (a.allocate { form := .plain, symbol := s }).1 <
        (a.allocate { form := .plain, symbol := s }).2.nodes.length := by
      rw [length_allocate]
      exact Nat.lt_succ_self _
    simp only [setParent, plantAll_alter _ _ _ cs hlt, setChildren, alter_alter]
    rfl

/-! ## 2. Planting -/

/-- What has been planted: a new node without a parent, and the nodes that there were. -/
structure Planted (a : Arena) (i : NodeId) (b : Arena) : Prop where
  sound : b.Sound
  fresh : a.nodes.length ≤ i
  there : i < b.nodes.length
  orphan : b.parentOf i = none
  frame : ∀ k, k < a.nodes.length → b.node? k = a.node? k

/-- A new leaf. -/
theorem Sound.planted_leaf (h : a.Sound) (hchildren : n.children = []) (hparent : n.parent = none)
    (hforgotten : n.forgotten = n) (hleaf : n.form ≠ .plain → n.symbol.most = 0) :
    Planted a (a.allocate n).1 (a.allocate n).2 where
  sound := h.allocate hchildren hparent hleaf hforgotten
  fresh := Nat.le_refl _
  there := by
    rw [length_allocate]
    exact Nat.lt_succ_self _
  orphan := by
    rw [parentOf, fst_allocate, node?_allocate, if_pos rfl]
    exact hparent
  frame k hk := by rw [node?_allocate, if_neg (Nat.ne_of_lt hk)]

/-- A node that gets children: it has none, no parent, and remembers nothing. -/
structure Bare (a : Arena) (p : NodeId) (n : Node) : Prop where
  node : a.node? p = some n
  plain : n.form = .plain
  children : n.children = []
  parent : n.parent = none
  forgotten : n.forgotten = n

/-- A node without a parent joins a bare one that has got its other children. -/
theorem Sound.attach_first {is : List NodeId} (h : (b.setChildren p is).Sound) (hp : Bare b p n)
    (hj : j < b.nodes.length) (horphan : b.parentOf j = none) (hne : j ≠ p) :
    ((b.setParent j (some p)).setChildren p (j :: is)).Sound := by
  have hlt := node?_lt hp.node
  have hnode : (b.setChildren p is).node? p = some { n with children := is } := by
    rw [setChildren, node?_alter, if_pos rfl, hp.node, Option.map_some]
  have hwas : (b.setChildren p is).childrenOf p = [] ++ is := by
    rw [childrenOf_setChildren hlt, if_pos rfl, List.nil_append]
  have hsame : (b.setParent j (some p)).setChildren p (j :: is) =
      ((b.setChildren p is).setChildren p ([] ++ j :: is)).setParent j (some p) := by
    rw [setParent, setParent, setChildren, setChildren, setChildren, alter_alter, alter_comm hne]
    rfl
  have hattached := h.toOrdered.attach hnode hp.plain hp.parent (by rwa [length_setChildren])
    (by rwa [parentOf_setChildren]) hne hwas
  rw [← hsame] at hattached
  refine ⟨hattached.ordered, fun k => ?_⟩
  by_cases hk : k = p
  · -- The parent itself remembers nothing.
    subst hk
    intro m hm
    obtain ⟨m', hm', halone⟩ := hattached.toRearranged.node hm
    obtain rfl := Option.some.inj (hm'.symm.trans hnode)
    refine Node.Truthful.of_alone ?_ halone
    have hknown : ({ n with children := is } : Node) = ({ n with children := is } : Node).forgotten := by
      conv_lhs => rw [← hp.forgotten]
      rfl
    rw [hknown]
    exact Node.truthful_forgotten _ _ _
  · exact hattached.truthful k hk (h.truthful k)

mutual

/-- **A planted tree is a new node without a parent.** -/
theorem Sound.plant : ∀ {a : Arena} {t : Tree}, a.Sound → t.Made →
    Planted a (a.plant none t).1 (a.plant none t).2
  | a, .constant s v, h, ht => by
    have hconstant : s.isConstant = true := ht (.constant s v) (by simp [Tree.preorder])
    rw [Arena.plant]
    refine h.planted_leaf rfl rfl rfl fun _ => s.most_of_kind ?_
    rw [of_decide_eq_true hconstant]
    rfl
  | a, .variable s, h, ht => by
    have hvariable : s.isVariable = true := ht (.variable s) (by simp [Tree.preorder])
    rw [Arena.plant]
    refine h.planted_leaf rfl rfl rfl fun _ => s.most_of_kind ?_
    rw [of_decide_eq_true hvariable]
    rfl
  | a, .node s cs, h, ht => by
    have hshell := h.planted_leaf (n := { form := .plain, symbol := s }) rfl rfl rfl
      fun hform => absurd rfl hform
    have hbare : Bare (a.allocate { form := .plain, symbol := s }).2
        (a.allocate { form := .plain, symbol := s }).1 { form := .plain, symbol := s } :=
      ⟨by rw [node?_allocate, fst_allocate, if_pos rfl], rfl, rfl, rfl, rfl⟩
    obtain ⟨hsound, hframe⟩ := hshell.sound.plantAll hbare fun c hc u hu =>
      ht u (List.mem_cons_of_mem _ (Tree.mem_preorderAll.mpr ⟨c, hc, hu⟩))
    rw [Arena.plant]
    have hle := length_plantAll_le (a.allocate { form := .plain, symbol := s }).1
      (a.allocate { form := .plain, symbol := s }).2 cs
    exact {
      sound := hsound
      fresh := hshell.fresh
      there := by
        rw [length_setChildren]
        exact hshell.there.trans_le hle
      orphan := by
        rw [parentOf_setChildren, parentOf, hframe _ hshell.there]
        exact hshell.orphan
      frame := fun k hk => by
        have hk' : (a.allocate { form := .plain, symbol := s }).1 ≠ k := Nat.ne_of_gt hk
        have hlt : k < (a.allocate { form := .plain, symbol := s }).2.nodes.length := by
          rw [length_allocate]
          exact Nat.lt_succ_of_lt hk
        simp only [setChildren]
        rw [node?_alter, if_neg hk', hframe k hlt, hshell.frame k hk] }

theorem Sound.plantAll : ∀ {a : Arena} {p : NodeId} {n : Node} {cs : List Tree}, a.Sound →
    Bare a p n → (∀ c ∈ cs, c.Made) →
      ((a.plantAll p cs).2.setChildren p (a.plantAll p cs).1).Sound ∧
        ∀ k, k < a.nodes.length → (a.plantAll p cs).2.node? k = a.node? k
  | a, p, n, [], h, hp, _ => by
    have hsame : a.setChildren p [] = a := alter_of_fixed fun m hm => by
      obtain rfl := Option.some.inj (hm.symm.trans hp.node)
      rw [← hp.children]
    rw [Arena.plantAll, hsame]
    exact ⟨h, fun _ _ => rfl⟩
  | a, p, n, c :: cs, h, hp, hcs => by
    have hfirst := h.plant (hcs c List.mem_cons_self)
    have hp' : Bare (a.plant none c).2 p n :=
      ⟨by rw [hfirst.frame p (node?_lt hp.node), hp.node], hp.plain, hp.children, hp.parent, hp.forgotten⟩
    obtain ⟨hrest, hframe⟩ := hfirst.sound.plantAll hp' fun d hd => hcs d (List.mem_cons_of_mem c hd)
    have hne : (a.plant none c).1 ≠ p := Nat.ne_of_gt ((node?_lt hp.node).trans_le hfirst.fresh)
    have hsplit : a.plantAll p (c :: cs) =
        ((a.plant none c).1 :: ((a.plant none c).2.plantAll p cs).1,
          ((a.plant none c).2.plantAll p cs).2.setParent (a.plant none c).1 (some p)) := by
      rw [Arena.plantAll, plant_some]
      simp only [setParent, plantAll_alter _ p _ cs hfirst.there]
    rw [hsplit]
    constructor
    · refine hrest.attach_first ⟨?_, hp'.plain, hp'.children, hp'.parent, hp'.forgotten⟩
        (hfirst.there.trans_le (length_plantAll_le p _ cs)) ?_ hne
      · rw [hframe p (node?_lt hp'.node), hp'.node]
      · rw [parentOf, hframe _ hfirst.there]
        exact hfirst.orphan
    · intro k hk
      have hk' : k < (a.plant none c).2.nodes.length := hk.trans_le (length_plant_le none a c)
      rw [setParent, node?_alter, if_neg (Nat.ne_of_gt (hk.trans_le hfirst.fresh)), hframe k hk',
        hfirst.frame k hk]

end

/-! ## 3. What has been planted -/

section Standing

variable {q : Option NodeId} {k : NodeId}

/-- A node stays as it is where growing takes no notice of what is altered at it. -/
theorem node?_of_commutes (grow : Arena → Arena) (hk : k < a.nodes.length)
    (hle : a.nodes.length ≤ (grow a).nodes.length)
    (hgrow : ∀ f, grow (a.alter k f) = (grow a).alter k f) : (grow a).node? k = a.node? k := by
  obtain ⟨n, hn⟩ := exists_node? hk
  have hfixed : a.alter k (fun _ => n) = a := alter_of_fixed fun m hm =>
    Option.some.inj (hn.symm.trans hm)
  obtain ⟨m, hm⟩ := exists_node? (hk.trans_le hle)
  have hnode := congrArg (·.node? k) (hgrow fun _ => n)
  rw [hfixed] at hnode
  simpa only [node?_alter, if_true, hm, Option.map_some, hn] using hnode

/-- Nothing is altered at the nodes that there are already. -/
theorem node?_plant {t : Tree} (hk : k < a.nodes.length) : (a.plant q t).2.node? k = a.node? k :=
  node?_of_commutes (fun a => (a.plant q t).2) hk (length_plant_le q a t) fun f => by
    simp only [plant_alter f q a t hk]

theorem node?_plantAll {cs : List Tree} (hk : k < a.nodes.length) :
    (a.plantAll p cs).2.node? k = a.node? k :=
  node?_of_commutes (fun a => (a.plantAll p cs).2) hk (length_plantAll_le p a cs) fun f => by
    simp only [plantAll_alter f p a cs hk]

/-- A node may as well have its children before they are planted. -/
theorem plant_node (a : Arena) (q : Option NodeId) (s : Symbol) (cs : List Tree) :
    ∃ b : Arena, a.plant q (.node s cs) = (a.nodes.length, (b.plantAll a.nodes.length cs).2) ∧
      b.node? a.nodes.length = some ⟨.plain, s, (b.plantAll a.nodes.length cs).1, q, none, none⟩ := by
  obtain ⟨shell, hshell⟩ : ∃ shell, shell =
    (a.allocate { form := .plain, symbol := s, parent := q }).2 := ⟨_, rfl⟩
  have hnode : shell.node? a.nodes.length = some { form := .plain, symbol := s, parent := q } := by
    rw [hshell, node?_allocate, if_pos rfl]
  have hplant := plantAll_alter (fun n => { n with children := (shell.plantAll a.nodes.length cs).1 })
    a.nodes.length _ cs (node?_lt hnode)
  refine ⟨shell.setChildren a.nodes.length (shell.plantAll a.nodes.length cs).1, ?_, ?_⟩
  · rw [plant]
    simp only [setChildren, hplant, fst_allocate, ← hshell]
  · rw [node?_setChildren_self, hnode, Option.map_some, setChildren, hplant]

/-- A new leaf stands for itself. -/
theorem stands_leaf {t : Tree} (hmade : n.MadeAs t) (hnone : t.children = []) (hchildren : n.children = [])
    (hforgotten : n.forgotten = n) :
    (a.allocate n).2.Stands n.parent (a.allocate n).1 t := by
  refine stands_iff.mpr ⟨n, by rw [node?_allocate, fst_allocate, if_pos rfl], ⟨hmade, rfl, ?_, ?_⟩, ?_⟩
  · rw [← hforgotten]
    nofun
  · rw [← hforgotten]
    nofun
  · rw [hnone, hchildren]
    exact .nil

mutual

/-- **A planted tree is what its node stands for.** -/
theorem stands_plant : ∀ (a : Arena) (q : Option NodeId) (t : Tree),
    (a.plant q t).2.Stands q (a.plant q t).1 t
  | a, q, .constant s v => by
    rw [plant]
    exact stands_leaf (n := { form := .constant v, symbol := s, parent := q }) ⟨rfl, rfl⟩ rfl rfl rfl
  | a, q, .variable s => by
    rw [plant]
    exact stands_leaf (n := { form := .variable, symbol := s, parent := q }) ⟨rfl, rfl⟩ rfl rfl rfl
  | a, q, .node s cs => by
    obtain ⟨b, hrun, hn⟩ := plant_node a q s cs
    rw [hrun]
    exact stands_iff.mpr ⟨_, (node?_plantAll (node?_lt hn)).trans hn, ⟨⟨rfl, rfl⟩, rfl, nofun, nofun⟩,
      stands_plantAll b a.nodes.length cs⟩

theorem stands_plantAll : ∀ (a : Arena) (p : NodeId) (cs : List Tree),
    List.Forall₂ ((a.plantAll p cs).2.Stands (some p)) (a.plantAll p cs).1 cs
  | _, _, [] => .nil
  | a, p, c :: cs => by
    rw [plantAll]
    refine .cons ?_ (stands_plantAll _ p cs)
    exact (stands_plant a (some p) c).of_frame fun k hk => node?_plantAll hk

end

/-- **Every tree whose nodes are of the sort that their symbols ask for is read from a sound arena.** -/
theorem exists_read {t : Tree} (ht : t.Made) :
    ∃ (a : Arena) (r : TreeId), a.Sound ∧ a.toTree? r = .ok (some t) := by
  obtain ⟨i, b, hrun⟩ : ∃ i b, ({} : Arena).plant none t = (i, b) := ⟨_, _, rfl⟩
  have hplanted := sound_empty.plant ht
  have hstands := stands_plant {} none t
  rw [hrun] at hplanted hstands
  dsimp only at hplanted hstands
  have hread := (hplanted.sound.reads (hstands.read (Nat.le_refl _))).2
  have hbound : t.depth ≤ b.pathBound := by
    have hsize := hplanted.sound.forest.size_le hplanted.there
    have hdepth := t.depth_le_length
    have hlength := hread.size
    simp only [pathBound]
    omega
  refine ⟨(b.allocateTree (some i)).2, (b.allocateTree (some i)).1, ?_, ?_⟩
  · exact (hplanted.sound.allocateTree fun j hj => Option.some.inj hj ▸ hplanted.there).1
  · have hstands' : (b.allocateTree (some i)).2.Stands none i t := hstands.of_frame fun _ _ => rfl
    have hread' : (b.allocateTree (some i)).2.toTree i = .ok t := hstands'.read hbound
    rw [toTree?, root?_allocateTree]
    simp only [hread']
    rfl

end Standing

end Arena
end FormulaEvolution
