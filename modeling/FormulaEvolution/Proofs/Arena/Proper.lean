/-
# Proper trees

A tree is proper (`Arena.Proper`) if its root has no parent, a node is a child of its parent and of no
other node, and once, wherever one of the two is in the tree, and only plain nodes have children.  About
the rest of the arena nothing is said, and nothing about what nodes remember.

The links of a proper tree form a forest by themselves (`Proper.forest`), so that walks in it come to an
end within the bounds, however many nodes there are elsewhere.  Hence whatever is seen of a proper tree
depends on its nodes only (`ProperTree.sameLooks`).
-/
import FormulaEvolution.Proofs.Arena.Moves

namespace FormulaEvolution

/-- A node with other names for its links. -/
def Node.renamed (f : NodeId → NodeId) (n : Node) : Node :=
  { n with children := n.children.map f, parent := n.parent.map f }

theorem Node.renamed_id : Node.renamed id = id := by
  funext n
  rw [Node.renamed, List.map_id, Option.map_id, id, id]

/-- Only a plain node has children. -/
def Node.fitsForm (n : Node) : Bool :=
  match n.form with
  | .plain => true
  | _ => n.children.isEmpty

namespace Arena

variable {a b d : Arena} {i k p c q r : NodeId} {n : Node} {u : TreeId}

/-! ## 1. Proper trees -/

/-- A node is the root of a proper tree. -/
structure Proper (a : Arena) (r : NodeId) : Prop where
  there : r < a.nodes.length
  top : a.parentOf r = none
  linked : ∀ p c, a.links.Below r p ∨ a.links.Below r c → (a.parentOf c = some p ↔ c ∈ a.childrenOf p)
  once : ∀ p, a.links.Below r p → (a.childrenOf p).Nodup
  leaves : ∀ p n, a.links.Below r p → a.node? p = some n → n.form ≠ .plain → n.children = []

/-- A tree holds a node. -/
def InTree (a : Arena) (u : TreeId) (k : NodeId) : Prop :=
  ∃ r, a.root? u = some r ∧ a.links.Below r k

/-- A tree is proper; one without a root is. -/
def ProperTree (a : Arena) (u : TreeId) : Prop := ∀ r, a.root? u = some r → a.Proper r

/-- In an arena in order every node without a parent is the root of a proper tree. -/
theorem Ordered.proper (h : a.Ordered) (hr : r < a.nodes.length) (htop : a.parentOf r = none) :
    a.Proper r where
  there := hr
  top := htop
  linked p c _ := h.forest.parent_iff p c
  once p _ := h.forest.once p
  leaves p n _ hn hform := (h.leaves p n hn hform).2

theorem lt_of_parent (h : a.parentOf c = some p) : c < a.nodes.length := by
  obtain ⟨n, hn, -⟩ := Option.bind_eq_some_iff.mp h
  exact node?_lt hn

theorem lt_of_child (h : c ∈ a.childrenOf p) : p < a.nodes.length := by
  by_contra hp
  rw [childrenOf, node?_of_le (Nat.le_of_not_lt hp)] at h
  exact List.not_mem_nil h

theorem mem_of_below {ks : List NodeId} (hr : r ∈ ks) (h : ∀ k ∈ ks, ∀ c ∈ a.childrenOf k, c ∈ ks)
    (hk : a.links.Below r k) : k ∈ ks := by
  induction hk with
  | refl => exact hr
  | @tail p c _ hc ih => exact h p ih c hc

/-- Nodes with the links of a proper tree are found to be one by looking at each of them. -/
theorem proper_of_all (ks : List NodeId) (hr : r ∈ ks) (htop : a.parentOf r = none)
    (h : ∀ k ∈ ks, k < a.nodes.length ∧ (a.childrenOf k).Nodup ∧ (∀ c ∈ a.childrenOf k, c ∈ ks) ∧
      (a.parentOf k).all (· ∈ ks) ∧ (a.node? k).all Node.fitsForm ∧
      ∀ i < a.nodes.length, (a.parentOf i = some k ↔ i ∈ a.childrenOf k) ∧
        (k ∈ a.childrenOf i → i ∈ ks)) : a.Proper r := by
  have hbelow : ∀ k, a.links.Below r k → k ∈ ks := fun k => mem_of_below hr fun p hp => (h p hp).2.2.1
  have hlinked : ∀ p c, p ∈ ks → (a.parentOf c = some p ↔ c ∈ a.childrenOf p) := by
    intro p c hp
    obtain ⟨-, -, hchildren, -, -, hlinks⟩ := h p hp
    constructor
    · intro hparent
      exact (hlinks c (lt_of_parent hparent)).1.mp hparent
    · intro hc
      exact (hlinks c (h c (hchildren c hc)).1).1.mpr hc
  exact {
    there := (h r hr).1
    top := htop
    linked := by
      rintro p c (hp | hc)
      · exact hlinked p c (hbelow p hp)
      · have hcks := hbelow c hc
        obtain ⟨-, -, -, hparents, -, hlinks⟩ := h c hcks
        constructor
        · intro hparent
          rw [hparent, Option.all_some] at hparents
          exact (hlinked p c (of_decide_eq_true hparents)).mp hparent
        · intro hchild
          exact (hlinked p c ((hlinks p (lt_of_child hchild)).2 hchild)).mpr hchild
    once := fun p hp => (h p (hbelow p hp)).2.1
    leaves := fun p n hp hn hform => by
      have hfits := (h p (hbelow p hp)).2.2.2.2.1
      rw [hn, Option.all_some, Node.fitsForm] at hfits
      split at hfits
      · next hplain => exact absurd hplain hform
      · exact List.isEmpty_iff.mp hfits }

open Classical in
/-- The links between the nodes below and including a node. -/
noncomputable def linksUnder (a : Arena) (r : NodeId) : Links where
  children p := if a.links.Below r p then a.childrenOf p else []
  parent c := if a.links.Below r c then a.parentOf c else none

theorem agrees_linksUnder (hi : a.links.Below r i) : a.links.AgreesBelow (a.linksUnder r) i :=
  fun _ hj => if_pos (hi.trans hj)

theorem isChild_linksUnder : (a.linksUnder r).IsChild p c ↔ a.links.Below r p ∧ c ∈ a.childrenOf p := by
  simp only [Links.IsChild, linksUnder]
  split
  · next hp => exact (and_iff_right hp).symm
  · next hp => exact iff_of_false List.not_mem_nil fun hc => hp hc.1

namespace Proper

variable (h : a.Proper r)

include h

/-- The parent of a node of the tree is in the tree. -/
theorem below_parent (hc : a.links.Below r c) (hp : a.parentOf c = some p) : a.links.Below r p := by
  rcases Relation.ReflTransGen.cases_tail hc with rfl | ⟨q, hq, hqc⟩
  · rw [h.top] at hp
    cases hp
  · have hparent := (h.linked q c (.inr hc)).mpr hqc
    rw [hp] at hparent
    exact Option.some.inj hparent ▸ hq

/-- **The links of a proper tree form a forest.** -/
theorem forest : (a.linksUnder r).Forest a.nodes.length where
  parent_iff p c := by
    rw [isChild_linksUnder]
    constructor
    · intro hparent
      simp only [linksUnder] at hparent
      split at hparent
      · next hc => exact ⟨h.below_parent hc hparent, (h.linked p c (.inr hc)).mp hparent⟩
      · cases hparent
    · rintro ⟨hp, hc⟩
      have hbelow : a.links.Below r c := hp.tail hc
      simp only [linksUnder]
      rw [if_pos hbelow]
      exact (h.linked p c (.inl hp)).mpr hc
  once p := by
    simp only [linksUnder]
    split
    · next hp => exact h.once p hp
    · exact List.nodup_nil
  acyclic i hi := by
    -- A cycle through a child of the tree goes through its parent, and the root has none.
    have hstep : ∀ k, a.links.Below r k → ¬ Relation.TransGen (a.linksUnder r).IsChild k k := by
      intro k hk
      induction hk with
      | refl =>
        intro hcycle
        obtain ⟨q, -, hq⟩ := Relation.TransGen.tail'_iff.mp hcycle
        obtain ⟨hbelow, hchild⟩ := isChild_linksUnder.mp hq
        have htop := h.top
        rw [(h.linked q r (.inl hbelow)).mpr hchild] at htop
        cases htop
      | @tail p c hp hc ih =>
        intro hcycle
        obtain ⟨q, hcq, hq⟩ := Relation.TransGen.tail'_iff.mp hcycle
        obtain ⟨hbelow, hchild⟩ := isChild_linksUnder.mp hq
        have hsame := (h.linked p c (.inl hp)).mpr hc
        rw [(h.linked q c (.inl hbelow)).mpr hchild] at hsame
        obtain rfl := Option.some.inj hsame
        exact ih (.head' hq hcq)
    obtain ⟨c, hc, -⟩ := Relation.TransGen.head'_iff.mp hi
    exact hstep i (isChild_linksUnder.mp hc).1 hi
  within p c hc := by
    obtain ⟨hp, hchild⟩ := isChild_linksUnder.mp hc
    exact ⟨lt_of_child hchild, lt_of_parent ((h.linked p c (.inl hp)).mpr hchild)⟩

theorem lt_of_below (hi : a.links.Below r i) : i < a.nodes.length :=
  h.forest.below_lt h.there ((agrees_linksUnder .refl).below hi)

theorem size_eq (hi : a.links.Below r i) :
    a.links.size i = 1 + ((a.childrenOf i).map a.links.size).sum := by
  have hsizes : (a.childrenOf i).map (a.linksUnder r).size = (a.childrenOf i).map a.links.size :=
    List.map_congr_left fun c hc => (agrees_linksUnder (hi.tail hc)).twins.size
  rw [← (agrees_linksUnder hi).twins.size, h.forest.size_eq, ← hsizes]
  simp only [linksUnder, if_pos hi]

theorem size_pos (hi : a.links.Below r i) : 0 < a.links.size i := by
  rw [h.size_eq hi]
  omega

theorem size_lt (hi : a.links.Below r i) (hc : c ∈ a.childrenOf i) : a.links.size c < a.links.size i := by
  have hle := List.le_sum_of_mem (List.mem_map_of_mem (f := a.links.size) hc)
  rw [h.size_eq hi]
  omega

theorem size_le_root (hi : a.links.Below r i) : a.links.size i ≤ a.links.size r := by
  induction hi with
  | refl => exact Nat.le_refl _
  | tail hp hc ih => exact (h.size_lt hp hc).le.trans ih

theorem size_le (hi : a.links.Below r i) : a.links.size i ≤ a.nodes.length := by
  rw [← (agrees_linksUnder hi).twins.size]
  exact h.forest.size_le (h.lt_of_below hi)

theorem not_below_of_child (hi : a.links.Below r i) (hc : c ∈ a.childrenOf i) : ¬ a.links.Below c i := by
  intro hci
  exact h.forest.not_below_of_child (isChild_linksUnder.mpr ⟨hi, hc⟩)
    ((agrees_linksUnder (hi.tail hc)).below hci)

/-- No two children have anything below in common. -/
theorem children_apart (hi : a.links.Below r i) :
    (a.childrenOf i).Pairwise (fun c d => ∀ j, a.links.Below c j → ¬ a.links.Below d j) := by
  have hapart := h.forest.children_apart i
  simp only [linksUnder, if_pos hi] at hapart
  refine hapart.imp_of_mem fun hc hd hne j hcj hdj => ?_
  exact hne j ((agrees_linksUnder (hi.tail hc)).below hcj) ((agrees_linksUnder (hi.tail hd)).below hdj)

/-- **No link leads into a proper tree.** -/
theorem shut : Shut (a.links.Below r) a := by
  intro i n hi hn
  constructor
  · intro c hc hbelow
    have hchild : c ∈ a.childrenOf i := by rwa [childrenOf_of_node? hn]
    exact hi (h.below_parent hbelow ((h.linked i c (.inr hbelow)).mpr hchild))
  · intro p hp hbelow
    exact hi (hbelow.tail ((h.linked p i (.inl hbelow)).mp (by rw [parentOf_of_node? hn, hp])))

/-! ## 2. Upwards -/

/-- The chain of a node depends on the parents in the tree, and on the bound only where that is too
small. -/
theorem chain_eq (hsame : ∀ k, a.links.Below r k → b.parentOf k = a.parentOf k) :
    ∀ {bound bound' : Nat} {k : NodeId}, a.links.Below r k → a.links.size r < a.links.size k + bound →
      a.links.size r < a.links.size k + bound' → b.chain bound' k = a.chain bound k
  | 0, _, k, hk, hbound, _ => absurd (h.size_le_root hk) (by omega)
  | _, 0, k, hk, _, hbound' => absurd (h.size_le_root hk) (by omega)
  | bound + 1, bound' + 1, k, hk, hbound, hbound' => by
    rw [chain, chain, hsame k hk]
    cases hparent : a.parentOf k with
    | none => rfl
    | some p =>
      have hp := h.below_parent hk hparent
      have hsize := h.size_lt hp ((h.linked p k (.inl hp)).mp hparent)
      exact congrArg (k :: ·) (chain_eq hsame hp (by omega) (by omega))

/-- **The level of a node depends on the parents in the tree.** -/
theorem level_eq (hsame : ∀ k, a.links.Below r k → b.parentOf k = a.parentOf k)
    (hle : a.nodes.length ≤ b.nodes.length) (hk : a.links.Below r k) : b.level k = a.level k := by
  have hsize := h.size_le .refl
  have hpos := h.size_pos hk
  have hchain : b.chain (b.nodes.length + 1) k = a.chain (a.nodes.length + 1) k :=
    h.chain_eq hsame hk (by omega) (by omega)
  rw [level, level, upward, upward, hchain]

end Proper

/-! ## 3. Nodes with other names -/

/-- **The same tree is read from nodes with other names**, if what is below them is of lower rank and both
bounds are enough for the ranks. -/
theorem toTreeWithin_renamed (f : NodeId → NodeId) (S : NodeId → Prop) (rank : NodeId → Nat)
    (hnode : ∀ i, S i → d.node? (f i) = (b.node? i).map (Node.renamed f)) (hpos : ∀ i, S i → 0 < rank i)
    (hchild : ∀ i, S i → ∀ c ∈ b.childrenOf i, S c ∧ rank c < rank i) :
    ∀ {bound bound' : Nat} {i : NodeId}, S i → rank i ≤ bound → rank i ≤ bound' →
      d.toTreeWithin bound' (f i) = b.toTreeWithin bound i
  | 0, _, i, hi, hbound, _ => absurd (hpos i hi) (by omega)
  | _, 0, i, hi, _, hbound' => absurd (hpos i hi) (by omega)
  | bound + 1, bound' + 1, i, hi, hbound, hbound' => by
    rw [toTreeWithin, toTreeWithin, expect, expect, hnode i hi]
    cases hn : b.node? i with
    | none => rfl
    | some n =>
      have hbelow : (n.children.map f).mapM (d.toTreeWithin bound') =
          n.children.mapM (b.toTreeWithin bound) := by
        rw [List.mapM_map]
        refine mapM_congr fun c hc => ?_
        obtain ⟨hin, hrank⟩ := hchild i hi c (by rwa [childrenOf_of_node? hn])
        exact toTreeWithin_renamed f S rank hnode hpos hchild hin (by omega) (by omega)
      simp only [Option.map_some, Node.renamed, bind, Except.bind, hbelow]

/-! ## 4. Questions side by side -/

/-- A tree has the same nodes in two arenas, with the children that they have in a third one. -/
structure Alike (a : Arena) (u : TreeId) (b d : Arena) : Prop where
  same : ∀ k, a.InTree u k → d.node? k = b.node? k
  kept : ∀ k, a.InTree u k → b.childrenOf k = a.childrenOf k
  roots : b.root? u = a.root? u ∧ d.root? u = a.root? u
  room : a.nodes.length ≤ b.nodes.length ∧ a.nodes.length ≤ d.nodes.length

/-- Two questions that are asked side by side are answered alike, and leave alike what was so. -/
def Lockstep {α : Type} (R : Arena → Arena → Prop) (ask ask' : Asking α) : Prop :=
  ∀ b d, R b d → (ask'.run d).1 = (ask.run b).1 ∧ R (ask.run b).2 (ask'.run d).2

section Questions

variable {α β : Type} {R : Arena → Arena → Prop}

theorem lockstep_pure (x : α) : Lockstep R (pure x) (pure x) := fun _ _ h => ⟨rfl, h⟩

theorem lockstep_bind {first first' : Asking α} {next next' : α → Asking β}
    (hfirst : Lockstep R first first') (hnext : ∀ x, Lockstep R (next x) (next' x)) :
    Lockstep R (first >>= next) (first' >>= next') := by
  intro b d h
  obtain ⟨hanswer, hafter⟩ := hfirst b d h
  rw [run_bind, run_bind]
  rcases hrun : first.run b with ⟨failure | x, b'⟩
  all_goals
    rcases hrun' : first'.run d with ⟨answer, d'⟩
    rw [hrun, hrun'] at hanswer hafter
    obtain rfl := hanswer
  · exact ⟨rfl, hafter⟩
  · exact hnext x b' d' hafter

theorem lockstep_mapM {f f' : NodeId → Asking α} : ∀ {cs : List NodeId},
    (∀ c ∈ cs, Lockstep R (f c) (f' c)) → Lockstep R (cs.mapM f) (cs.mapM f')
  | [], _ => lockstep_pure []
  | c :: cs, h => by
    rw [List.mapM_cons, List.mapM_cons]
    exact lockstep_bind (h c List.mem_cons_self) fun x =>
      lockstep_bind (lockstep_mapM fun c' hc' => h c' (List.mem_cons_of_mem c hc')) fun xs =>
        lockstep_pure (x :: xs)

theorem lockstep_modify {f : Arena → Arena} {x : α} (hf : ∀ b d, R b d → R (f b) (f d)) :
    Lockstep R (modify f >>= fun _ => pure x) (modify f >>= fun _ => pure x) :=
  fun b d h => ⟨rfl, hf b d h⟩

end Questions

theorem Alike.alter {f : Node → Node} (h : Alike a u b d) (hf : ∀ n, (f n).children = n.children) :
    Alike a u (b.alter i f) (d.alter i f) where
  same k hk := by rw [node?_alter, node?_alter, h.same k hk]
  kept k hk := by
    rw [← h.kept k hk, childrenOf, childrenOf, node?_alter]
    split
    · cases b.node? k with
      | none => rfl
      | some n => exact hf n
    · rfl
  roots := h.roots
  room := by rw [length_alter, length_alter]; exact h.room

theorem InTree.child (hi : a.InTree u i) (hc : c ∈ a.childrenOf i) : a.InTree u c := by
  obtain ⟨r, hr, hri⟩ := hi
  exact ⟨r, hr, hri.tail hc⟩

theorem InTree.root (hr : a.root? u = some r) : a.InTree u r := ⟨r, hr, .refl⟩

namespace ProperTree

variable (h : a.ProperTree u)

include h

theorem size_lt (hi : a.InTree u i) (hc : c ∈ a.childrenOf i) : a.links.size c < a.links.size i := by
  obtain ⟨r, hr, hri⟩ := hi
  exact (h r hr).size_lt hri hc

theorem size_pos (hi : a.InTree u i) : 0 < a.links.size i := by
  obtain ⟨r, hr, hri⟩ := hi
  exact (h r hr).size_pos hri

theorem size_le (hi : a.InTree u i) : a.links.size i ≤ a.nodes.length := by
  obtain ⟨r, hr, hri⟩ := hi
  exact (h r hr).size_le hri

theorem lt_of_inTree (hi : a.InTree u i) : i < a.nodes.length := by
  obtain ⟨r, hr, hri⟩ := hi
  exact (h r hr).lt_of_below hri

/-- **No link leads into a proper tree.** -/
theorem shut : Shut (a.InTree u) a := by
  intro i n hi hn
  constructor
  · rintro c hc ⟨r, hr, hbelow⟩
    exact ((h r hr).shut i n (fun hri => hi ⟨r, hr, hri⟩) hn).children c hc hbelow
  · rintro p hp ⟨r, hr, hbelow⟩
    exact ((h r hr).shut i n (fun hri => hi ⟨r, hr, hri⟩) hn).parent p hp hbelow

/-- **A question is answered alike by arenas that have the same nodes in a proper tree**, and leaves them
so.  The induction is on the bounds, each of which is enough for the nodes below. -/
theorem lockstep_askWithin {q : Quantity} (hq : ∀ k n, (q.remember k n).children = n.children) :
    ∀ {bound bound' : Nat} {i : NodeId}, a.InTree u i → a.links.size i ≤ bound →
      a.links.size i ≤ bound' → Lockstep (Alike a u) (q.askWithin bound i) (q.askWithin bound' i)
  | 0, _, i, hi, hbound, _ => absurd (h.size_pos hi) (by omega)
  | _, 0, i, hi, _, hbound' => absurd (h.size_pos hi) (by omega)
  | bound + 1, bound' + 1, i, hi, hbound, hbound' => by
    intro b d halike
    have hexpect : d.expect i = b.expect i := by rw [expect, expect, halike.same i hi]
    rw [Quantity.askWithin, Quantity.askWithin, Quantity.askOnce, Quantity.askOnce, run_get_bind,
      run_get_bind, hexpect]
    cases hn : b.expect i with
    | error failure => exact ⟨rfl, halike⟩
    | ok n =>
      rw [run_liftM_ok_bind, run_liftM_ok_bind]
      cases q.known n with
      | some known => exact ⟨rfl, halike⟩
      | none =>
        have hchildren : n.children = a.childrenOf i := by
          rw [← halike.kept i hi, childrenOf_of_node? (node?_of_expect hn)]
        refine lockstep_bind (lockstep_mapM fun c hc => ?_) (fun ks => lockstep_modify fun b d hbd =>
          hbd.alter (hq _)) b d halike
        rw [hchildren] at hc
        have hsize := h.size_lt hi hc
        exact lockstep_askWithin hq (hi.child hc) (by omega) (by omega)

theorem lockstep_ask {q : Quantity} (hq : ∀ k n, (q.remember k n).children = n.children)
    (hi : a.InTree u i) : Lockstep (Alike a u) (do q.askWithin (← get).pathBound i)
      (do q.askWithin (← get).pathBound i) := by
  intro b d halike
  have hsize := h.size_le hi
  have hroom := halike.room
  rw [run_get_bind, run_get_bind]
  exact h.lockstep_askWithin hq hi (by rw [pathBound]; omega) (by rw [pathBound]; omega) b d halike

theorem lockstep_askLength (hi : a.InTree u i) :
    Lockstep (Alike a u) (askLength i) (askLength i) := by
  simp only [askLength, askLengthWithin_eq]
  exact h.lockstep_ask (fun _ _ => rfl) hi

theorem lockstep_askDepth (hi : a.InTree u i) : Lockstep (Alike a u) (askDepth i) (askDepth i) := by
  simp only [askDepth, askDepthWithin_eq]
  exact h.lockstep_ask (fun _ _ => rfl) hi

theorem lockstep_askTreeLength : Lockstep (Alike a u) (askTreeLength u) (askTreeLength u) := by
  intro b d halike
  rw [askTreeLength, run_get_bind, run_get_bind, halike.roots.1, halike.roots.2]
  cases hr : a.root? u with
  | none => exact ⟨rfl, halike⟩
  | some r => exact h.lockstep_askLength (.root hr) b d halike

theorem lockstep_askTreeDepth : Lockstep (Alike a u) (askTreeDepth u) (askTreeDepth u) := by
  intro b d halike
  rw [askTreeDepth, run_get_bind, run_get_bind, halike.roots.1, halike.roots.2]
  cases hr : a.root? u with
  | none => exact ⟨rfl, halike⟩
  | some r => exact h.lockstep_askDepth (.root hr) b d halike

/-! ## 5. What is read -/

theorem toTreeWithin_eq (halike : Alike a u b d) {bound bound' : Nat} (hi : a.InTree u i)
    (hbound : a.links.size i ≤ bound) (hbound' : a.links.size i ≤ bound') :
    d.toTreeWithin bound' i = b.toTreeWithin bound i := by
  refine toTreeWithin_renamed id (a.InTree u) a.links.size (fun k hk => ?_)
    (fun k hk => h.size_pos hk) (fun k hk c hc => ?_) hi hbound hbound'
  · rw [id, halike.same k hk, Node.renamed_id, Option.map_id, id]
  · rw [halike.kept k hk] at hc
    exact ⟨hk.child hc, h.size_lt hk hc⟩

/-- **The same tree is read from arenas that have the same nodes in a proper tree.** -/
theorem toTree_eq (halike : Alike a u b d) (hi : a.InTree u i) : d.toTree i = b.toTree i := by
  have hsize := h.size_le hi
  have hroom := halike.room
  exact h.toTreeWithin_eq halike hi (by rw [pathBound]; omega) (by rw [pathBound]; omega)

theorem toTree?_eq (halike : Alike a u b d) : d.toTree? u = b.toTree? u := by
  rw [toTree?, toTree?, halike.roots.1, halike.roots.2]
  cases hr : a.root? u with
  | none => rfl
  | some r => simp only [h.toTree_eq halike (.root hr)]

theorem lockstep_askDocument : Lockstep (Alike a u) (askDocument u) (askDocument u) := by
  intro b d halike
  rw [askDocument, run_get_bind, run_get_bind, h.toTree?_eq halike]
  cases b.toTree? u with
  | error failure => exact ⟨rfl, halike⟩
  | ok t =>
    exact lockstep_bind h.lockstep_askTreeLength (fun _ => lockstep_bind h.lockstep_askTreeDepth
      fun _ => lockstep_pure _) b d halike

end ProperTree

/-! ## 6. All that is seen -/

/-- A tree looks the same in an arena and in a later one: its text, its document, its length and its
depth, and of each node all that it has, its level, the tree below it and the answers that it gives. -/
structure SameLooks (a b : Arena) (u : TreeId) : Prop where
  root : b.root? u = a.root? u
  text : b.treeTextOf u = a.treeTextOf u
  document : ((askDocument u).run b).1 = ((askDocument u).run a).1
  length : ((askTreeLength u).run b).1 = ((askTreeLength u).run a).1
  depth : ((askTreeDepth u).run b).1 = ((askTreeDepth u).run a).1
  node : ∀ k, a.InTree u k → b.node? k = a.node? k
  level : ∀ k, a.InTree u k → b.level k = a.level k
  below : ∀ k, a.InTree u k → b.toTree k = a.toTree k
  lengths : ∀ k, a.InTree u k → ((askLength k).run b).1 = ((askLength k).run a).1
  depths : ∀ k, a.InTree u k → ((askDepth k).run b).1 = ((askDepth k).run a).1

/-- **A proper tree looks the same as long as its nodes are the same.** -/
theorem ProperTree.sameLooks (h : a.ProperTree u) (hroot : b.root? u = a.root? u)
    (hsame : ∀ k, a.InTree u k → b.node? k = a.node? k) (hle : a.nodes.length ≤ b.nodes.length) :
    SameLooks a b u := by
  have halike : Alike a u a b := ⟨hsame, fun _ _ => rfl, ⟨rfl, hroot⟩, Nat.le_refl _, hle⟩
  exact {
    root := hroot
    text := by rw [treeTextOf, treeTextOf, h.toTree?_eq halike]
    document := (h.lockstep_askDocument a b halike).1
    length := (h.lockstep_askTreeLength a b halike).1
    depth := (h.lockstep_askTreeDepth a b halike).1
    node := hsame
    level := by
      rintro k ⟨r, hr, hk⟩
      refine (h r hr).level_eq (fun m hm => ?_) hle hk
      rw [parentOf, parentOf, hsame m ⟨r, hr, hm⟩]
    below := fun k hk => h.toTree_eq halike hk
    lengths := fun k hk => (h.lockstep_askLength hk a b halike).1
    depths := fun k hk => (h.lockstep_askDepth hk a b halike).1 }

end Arena
end FormulaEvolution
