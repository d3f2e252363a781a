/-
# Copies of nodes

A copy of a node is a new node without a parent, with as many nodes below and paths of the same lengths
as its origin, and it stands for the same tree (`copyWithin_ok`).  What it remembers is what the origin
remembers, so it is true once all is copied (`Sound.copyNode`, `Sound.copyTree`).

Until then the shells on the way down remember what is not true of them yet, and `Copying` exempts
them.  A copy joins a shell that has no parent, so that nothing else becomes false.
-/
import FormulaEvolution.Arena.Copy
import FormulaEvolution.Proofs.Arena.Standing

namespace FormulaEvolution

theorem Links.Twins.trans {l l' l'' : Links} {i j k : NodeId} (h : Links.Twins l l' i j)
    (h' : Links.Twins l' l'' j k) : Links.Twins l l'' i k :=
  ⟨h'.size.trans h.size, fun m => (h'.descent m).trans (h.descent m)⟩

namespace Arena

variable {a₀ a b : Arena} {shells : List NodeId} {s t : CopyState} {i j k p c : NodeId} {q : Option NodeId}
  {n : Node}

/-- Below a node is the same as before if the nodes that there were are the same. -/
theorem Ordered.agrees_of_frame (h : a.Ordered)
    (hframe : ∀ k, k < a.nodes.length → b.node? k = a.node? k) (hi : i < a.nodes.length) :
    Links.AgreesBelow a.links b.links i := by
  intro k hk
  have hlt := h.forest.below_lt hi hk
  simp only [links, childrenOf, hframe k hlt]

/-! ## 1. Copying on the way -/

/-- A node is a copy of another one: a twin that stands for the same tree, below a parent of its own. -/
structure CopyOf (a b : Arena) (q : Option NodeId) (i j : NodeId) : Prop
    extends Links.Twins a.links b.links i j where
  stands : ∀ r t, a.Stands r i t → b.Stands q j t

/-- Copies are being made of nodes of a sound arena.  Only the shells remember what may not be true
yet. -/
structure Copying (a₀ : Arena) (shells : List NodeId) (s : CopyState) : Prop where
  ordered : s.arena.Ordered
  old : ∀ k, k < a₀.nodes.length → s.arena.node? k = a₀.node? k
  grown : a₀.nodes.length ≤ s.arena.nodes.length
  within : ∀ k ∈ shells, k < s.arena.nodes.length
  truthful : ∀ k, k ∉ shells → s.arena.Truthful k

/-- A node has been copied to a new one without a parent. -/
structure Copied (a₀ : Arena) (shells : List NodeId) (i : NodeId) (s : CopyState) (j : NodeId)
    (t : CopyState) : Prop where
  copying : Copying a₀ shells t
  fresh : j = s.arena.nodes.length
  there : j < t.arena.nodes.length
  orphan : t.arena.parentOf j = none
  frame : ∀ k, k < s.arena.nodes.length → t.arena.node? k = s.arena.node? k
  copy : CopyOf a₀ t.arena none i j
  apart : ∀ k, s.copyOf? k = none → ¬ a₀.links.Below i k → t.copyOf? k = none

/-- A shell is without a parent and has copies of some nodes as its children so far. -/
structure Shell (a₀ : Arena) (shells : List NodeId) (p : NodeId) (n : Node) (origins : List NodeId)
    (s : CopyState) : Prop extends Copying a₀ shells s where
  exempt : p ∈ shells
  new : a₀.nodes.length ≤ p
  node : ∃ n', s.arena.node? p = some n' ∧ n'.alone = n.alone ∧ n'.parent = none
  copies : List.Forall₂ (CopyOf a₀ s.arena (some p)) origins (s.arena.childrenOf p)

/-- Nodes that there were are the same, but for one. -/
structure Onward (p : NodeId) (s t : CopyState) : Prop where
  frame : ∀ k, k < s.arena.nodes.length → k ≠ p → t.arena.node? k = s.arena.node? k
  grown : s.arena.nodes.length ≤ t.arena.nodes.length

theorem Onward.trans {u : CopyState} (h : Onward p s t) (h' : Onward p t u) : Onward p s u where
  frame k hk hkp := (h'.frame k (hk.trans_le h.grown) hkp).trans (h.frame k hk hkp)
  grown := h.grown.trans h'.grown

/-! ## 2. Shells -/

/-- A node counts as copied if it did before or gets its shell. -/
theorem copyOf?_addShell {k : NodeId} (hk : s.copyOf? k = none) (hik : i ≠ k) :
    (s.addShell i n).2.copyOf? k = none := by
  rw [CopyState.copyOf?, Option.map_eq_none_iff] at hk ⊢
  rw [CopyState.addShell, List.find?_append, hk]
  simp [hik]

/-- **A shell is a new node by itself**, exempt until it has its children. -/
theorem Copying.addShell (h : Copying a₀ shells s) (hn : a₀.node? i = some n) :
    Shell a₀ (s.arena.nodes.length :: shells) s.arena.nodes.length n [] (s.addShell i n).2 ∧
      ∀ k, k < s.arena.nodes.length → (s.addShell i n).2.arena.node? k = s.arena.node? k := by
  have hcount : (s.addShell i n).2.arena.nodes.length = s.arena.nodes.length + 1 := length_allocate _
  have hframe : ∀ k, k < s.arena.nodes.length →
      (s.addShell i n).2.arena.node? k = s.arena.node? k := fun k hk =>
    (node?_allocate _ _ k).trans (if_neg (Nat.ne_of_lt hk))
  have hnode : (s.addShell i n).2.arena.node? s.arena.nodes.length =
      some { n with children := [], parent := none } :=
    (node?_allocate _ _ _).trans (if_pos rfl)
  have hleaf : n.form ≠ .plain → n.symbol.most = 0 := fun hform =>
    (h.ordered.leaves i n (by rw [h.old i (node?_lt hn), hn]) hform).1
  refine ⟨{
    ordered := h.ordered.allocate rfl rfl hleaf
    old := fun k hk => (hframe k (hk.trans_le h.grown)).trans (h.old k hk)
    grown := hcount ▸ h.grown.trans (Nat.le_succ _)
    within := fun k hk => ?_
    truthful := fun k hk => ?_
    exempt := List.mem_cons_self
    new := h.grown
    node := ⟨_, hnode, rfl, rfl⟩
    copies := ?_ }, hframe⟩
  · rw [hcount]
    rcases List.mem_cons.mp hk with rfl | hk
    · exact Nat.lt_succ_self _
    · exact (h.within k hk).trans (Nat.lt_succ_self _)
  · rw [List.mem_cons, not_or] at hk
    exact truthful_allocate hk.1 (h.truthful k hk.2) rfl rfl
  · rw [childrenOf_of_node? hnode]
    exact .nil

/-- Joining a shell is getting a parent and becoming its last child. -/
theorem arena_attach {n' : Node} (hn : s.arena.node? p = some n') : (s.attach p c).arena =
    (s.arena.setChildren p (s.arena.childrenOf p ++ [c])).setParent c (some p) := by
  simp only [CopyState.attach, setChildren]
  congr 1
  refine ext_node? (fun k => ?_) rfl
  rw [node?_alter, node?_alter]
  split
  · next hk => rw [← hk, hn, Option.map_some, Option.map_some, childrenOf_of_node? hn]
  · rfl

/-- Joining a shell changes nothing else. -/
theorem node?_attach_of_ne (hkp : k ≠ p) (hkc : k ≠ c) :
    (s.attach p c).arena.node? k = s.arena.node? k := by
  simp only [CopyState.attach]
  rw [node?_setParent_of_ne _ hkc, node?_alter, if_neg hkp.symm]

/-- Who joins gets a parent. -/
theorem node?_attach (hcp : c ≠ p) : (s.attach p c).arena.node? c =
    (s.arena.node? c).map fun n => { n with parent := some p } := by
  simp only [CopyState.attach]
  rw [node?_setParent_self, node?_alter, if_neg hcp.symm]

/-- **A copy joins a shell.**  The children that the shell has already stay twins: neither the copying
nor the joining changes anything below them. -/
theorem Shell.join {origins : List NodeId} (h : Shell a₀ shells p n origins s)
    (hplain : n.form = .plain) (hc : Copied a₀ shells c s j t) :
    Shell a₀ shells p n (origins ++ [c]) (t.attach p j) ∧ Onward p s (t.attach p j) := by
  obtain ⟨n', hn', halone, hparent⟩ := h.node
  have hlt := node?_lt hn'
  have hn : t.arena.node? p = some n' := (hc.frame p hlt).trans hn'
  have hne : j ≠ p := hc.fresh ▸ Nat.ne_of_gt hlt
  have hform : n'.form = .plain := (Node.of_alone halone).1.trans hplain
  have hattached : Attached t.arena (t.attach p j).arena p j (t.arena.childrenOf p) [] := by
    rw [arena_attach hn]
    exact hc.copying.ordered.attach hn hform hparent hc.there hc.orphan hne (List.append_nil _).symm
  have hframe : ∀ k, k < s.arena.nodes.length → k ≠ p →
      (t.attach p j).arena.node? k = s.arena.node? k := fun k hk hkp => by
    rw [node?_attach_of_ne hkp (hc.fresh ▸ Nat.ne_of_lt hk), hc.frame k hk]
  have hgrown : s.arena.nodes.length ≤ (t.attach p j).arena.nodes.length := by
    rw [hattached.count, ← hc.fresh]
    exact Nat.le_of_lt hc.there
  refine ⟨{
    ordered := hattached.ordered
    old := fun k hk => ?_
    grown := h.grown.trans hgrown
    within := fun k hk => (h.within k hk).trans_le hgrown
    truthful := fun k hk => ?_
    exempt := h.exempt
    new := h.new
    node := ?_
    copies := ?_ }, hframe, hgrown⟩
  · rw [hframe k (hk.trans_le h.grown) (Nat.ne_of_lt (hk.trans_le h.new)), h.old k hk]
  · exact hattached.truthful k (fun heq => hk (heq ▸ h.exempt)) (hc.copying.truthful k hk)
  · obtain ⟨m, hm⟩ := exists_node? (hlt.trans_le hgrown)
    obtain ⟨m', hm', halone'⟩ := hattached.toRearranged.node hm
    obtain rfl := Option.some.inj (hm'.symm.trans hn)
    refine ⟨m, hm, halone'.trans halone, ?_⟩
    rw [← parentOf_of_node? hm, hattached.parent, if_neg (by simpa using Ne.symm hne),
      if_neg List.not_mem_nil, parentOf_of_node? hn, hparent]
  · have hchildren : t.arena.childrenOf p = s.arena.childrenOf p := by
      rw [childrenOf, childrenOf, hc.frame p hlt]
    have hstays : ∀ o d, d ∈ s.arena.childrenOf p → CopyOf a₀ s.arena (some p) o d →
        CopyOf a₀ (t.attach p j).arena (some p) o d := fun o d hd hcopy => by
      have hthere := (h.ordered.forest.within p d hd).2
      have hdp : d ≠ p := fun heq => h.ordered.forest.acyclic p (.single (heq ▸ hd))
      refine ⟨(hcopy.toTwins.trans (h.ordered.agrees_of_frame hc.frame hthere).twins).trans
        (hattached.agrees d hdp).symm.twins, fun r u hu => (hcopy.stands r u hu).of_same fun k hk => ?_⟩
      refine hframe k (h.ordered.forest.below_lt hthere hk) ?_
      rintro rfl
      exact h.ordered.forest.not_below_of_child hd hk
    have hcomes : CopyOf a₀ (t.attach p j).arena (some p) c j := by
      refine ⟨hc.copy.toTwins.trans (hattached.agrees j hne).symm.twins, fun r u hu => ?_⟩
      refine (hc.copy.stands r u hu).reparent hc.copying.ordered.forest (node?_attach hne)
        fun k hkj hk => node?_attach_of_ne ?_ hkj
      rintro rfl
      exact hne (hc.copying.ordered.forest.eq_of_below_orphan
        ((parentOf_of_node? hn).trans hparent) hk)
    rw [hattached.children, if_pos rfl, List.append_nil, hchildren]
    exact List.rel_append (forall₂_imp_of_mem h.copies fun o d _ hd => hstays o d hd) (.cons hcomes .nil)

/-! ## 3. Copies -/

/-- **Copies of several nodes become the further children of a shell.** -/
theorem copyChildren_ok {copyOne : NodeId → CopyState → NodeId × CopyState} :
    ∀ {cs origins : List NodeId} {s : CopyState},
      (∀ c ∈ cs, ∀ s, Copying a₀ shells s → (∀ k, a₀.links.Below c k → s.copyOf? k = none) →
        Copied a₀ shells c s (copyOne c s).1 (copyOne c s).2) →
      Shell a₀ shells p n origins s → (cs ≠ [] → n.form = .plain) →
      cs.Pairwise (fun c d => ∀ k, a₀.links.Below c k → ¬ a₀.links.Below d k) →
      (∀ c ∈ cs, ∀ k, a₀.links.Below c k → s.copyOf? k = none) →
      Shell a₀ shells p n (origins ++ cs) (copyChildren copyOne p cs s) ∧
        Onward p s (copyChildren copyOne p cs s) ∧
        ∀ k, s.copyOf? k = none → (∀ c ∈ cs, ¬ a₀.links.Below c k) →
          (copyChildren copyOne p cs s).copyOf? k = none
  | [], origins, s, _, h, _, _, _ => by
    rw [copyChildren, List.append_nil]
    exact ⟨h, ⟨fun _ _ _ => rfl, Nat.le_refl _⟩, fun _ hk _ => hk⟩
  | c :: cs, origins, s, hone, h, hplain, hapart, hfree => by
    have hform := hplain (List.cons_ne_nil c cs)
    have hc := hone c List.mem_cons_self s h.toCopying (hfree c List.mem_cons_self)
    obtain ⟨hfirst, hrest⟩ := List.pairwise_cons.mp hapart
    obtain ⟨hjoined, honward⟩ := h.join hform hc
    obtain ⟨hshell, honward', hout⟩ := copyChildren_ok
      (fun d hd => hone d (List.mem_cons_of_mem c hd)) hjoined (fun _ => hform) hrest
      fun d hd k hdk => hc.apart k (hfree d (List.mem_cons_of_mem c hd) k hdk)
        fun hck => hfirst d hd k hck hdk
    rw [copyChildren]
    refine ⟨by simpa using hshell, honward.trans honward', fun k hk hnot => ?_⟩
    exact hout k (hc.apart k hk (hnot c List.mem_cons_self)) fun d hd =>
      hnot d (List.mem_cons_of_mem c hd)

/-- **A node is a copy of another one if its children are copies and it is alike by itself.** -/
theorem copyOf_of_children {n n' : Node} (htwins : Links.Twins a.links b.links i j)
    (hn : a.node? i = some n) (hn' : b.node? j = some n') (halone : n'.alone = n.alone)
    (hparent : n'.parent = none)
    (hcopies : List.Forall₂ (CopyOf a b (some j)) n.children (b.childrenOf j)) :
    CopyOf a b none i j := by
  refine ⟨htwins, fun r u hu => ?_⟩
  obtain ⟨m, hm, hheads, hchildren⟩ := stands_iff.mp hu
  obtain rfl := Option.some.inj (hm.symm.trans hn)
  obtain ⟨hform, hsymbol, hlength, hdepth⟩ := Node.of_alone halone
  rw [childrenOf_of_node? hn'] at hcopies
  refine stands_iff.mpr ⟨n', hn', ⟨?_, hparent, ?_, ?_⟩, ?_⟩
  · exact hheads.made.congr hform hsymbol
  · rw [hlength]
    exact hheads.length
  · rw [hdepth]
    exact hheads.depth
  · exact forall₂_trans (fun d c v hcopy hv => hcopy.stands _ v hv) hcopies.flip hchildren

/-- **A copy is a twin of its origin, and stands for the same tree.**  The induction is on the bound, which is enough for all nodes
below; no node is met a second time, as no two children have anything below in common. -/
theorem copyWithin_ok (h₀ : a₀.Sound) : ∀ {bound : Nat} {i : NodeId} {shells : List NodeId}
    {s : CopyState}, i < a₀.nodes.length → a₀.links.size i ≤ bound → Copying a₀ shells s →
      (∀ k, a₀.links.Below i k → s.copyOf? k = none) →
      Copied a₀ shells i s (copyWithin bound i s).1 (copyWithin bound i s).2
  | 0, i, _, _, _, hbound, _, _ => absurd (h₀.forest.size_pos i) (by omega)
  | bound + 1, i, shells, s, hi, hbound, h, hfree => by
    obtain ⟨n, hn⟩ := exists_node? hi
    have hnode : s.arena.node? i = some n := (h.old i hi).trans hn
    have hchildren : n.children = a₀.links.children i := (childrenOf_of_node? hn).symm
    have hcopied : copiedChildren n = a₀.links.children i := by
      rw [copiedChildren, ← hchildren]
      split
      · rfl
      · next hform => exact (h₀.leaves i n hn fun heq => hform heq).2.symm
    have hrun : copyWithin (bound + 1) i s = (s.arena.nodes.length,
        copyChildren (copyWithin bound) s.arena.nodes.length (a₀.links.children i)
          (s.addShell i n).2) := by
      rw [copyWithin, hfree i .refl]
      simp only [hnode, hcopied]
      rfl
    rw [hrun]
    obtain ⟨hshell, hframe⟩ := h.addShell hn
    have hone : ∀ c ∈ a₀.links.children i, ∀ t, Copying a₀ (s.arena.nodes.length :: shells) t →
        (∀ k, a₀.links.Below c k → t.copyOf? k = none) →
        Copied a₀ (s.arena.nodes.length :: shells) c t (copyWithin bound c t).1
          (copyWithin bound c t).2 := by
      intro c hc t ht hfree'
      have hsize := h₀.forest.size_lt hc
      exact copyWithin_ok h₀ (h₀.forest.within i c hc).2 (by omega) ht hfree'
    obtain ⟨hdone, honward, hout⟩ := copyChildren_ok hone hshell
      (fun hne => by
        obtain ⟨c, hc⟩ := List.exists_mem_of_ne_nil _ hne
        exact h₀.toOrdered.plain_of_child hn (hchildren ▸ hc))
      (h₀.forest.children_apart i)
      (fun c hc k hck => copyOf?_addShell (hfree k (.head hc hck)) fun heq =>
        h₀.forest.not_below_of_child hc (heq ▸ hck))
    obtain ⟨n', hn', halone, hparent⟩ := hdone.node
    have htwins := Links.twins_of_children h₀.forest hdone.ordered.forest
      (hdone.copies.imp fun _ _ hcopy => hcopy.toTwins)
    have hframe' : ∀ k, k < s.arena.nodes.length → (copyChildren (copyWithin bound)
        s.arena.nodes.length (a₀.links.children i) (s.addShell i n).2).arena.node? k =
          s.arena.node? k := fun k hk => by
      rw [honward.frame k (hk.trans (hshell.within _ List.mem_cons_self)) (Nat.ne_of_lt hk), hframe k hk]
    exact {
      copying := {
        ordered := hdone.ordered
        old := hdone.old
        grown := hdone.grown
        within := fun k hk => hdone.within k (List.mem_cons_of_mem _ hk)
        truthful := fun k hk => by
          by_cases hnew : k = s.arena.nodes.length
          · -- The shell has got its children, so that what it remembers is true again.
            subst hnew
            intro m hm
            obtain rfl := Option.some.inj (hm.symm.trans hn')
            exact ((h₀.truthful i n hn).of_twins htwins).of_alone halone
          · exact hdone.truthful k fun hin => (List.mem_cons.mp hin).elim hnew hk }
      fresh := rfl
      there := node?_lt hn'
      orphan := (parentOf_of_node? hn').trans hparent
      frame := hframe'
      copy := copyOf_of_children htwins hn hn' halone hparent (hchildren ▸ hdone.copies)
      apart := fun k hk hik => hout k (copyOf?_addShell hk fun heq => hik (heq ▸ .refl))
        fun c hc hck => hik (.head hc hck) }

theorem Sound.copied (h : a.Sound) (hi : i < a.nodes.length) :
    Copied a [] i ⟨a, []⟩ (a.copyNode i).1 (copyWithin (a.nodes.length + 1) i ⟨a, []⟩).2 :=
  copyWithin_ok h hi ((h.forest.size_le hi).trans (Nat.le_succ _))
    ⟨h.toOrdered, fun _ _ => rfl, Nat.le_refl _, nofun, fun k _ => h.truthful k⟩ fun _ _ => rfl

/-- **A copy of a node keeps an arena sound.** -/
theorem Sound.copyNode (h : a.Sound) (hi : i < a.nodes.length) :
    (a.copyNode i).2.Sound ∧ (a.copyNode i).1 < (a.copyNode i).2.nodes.length ∧
      a.nodes.length ≤ (a.copyNode i).2.nodes.length :=
  have hcopied := h.copied hi
  ⟨⟨hcopied.copying.ordered, fun k => hcopied.copying.truthful k List.not_mem_nil⟩, hcopied.there,
    hcopied.copying.grown⟩

/-- **A copy of a tree keeps an arena sound.** -/
theorem Sound.copyTree (h : a.Sound) (t : TreeId) :
    (a.copyTree t).2.Sound ∧ a.nodes.length ≤ (a.copyTree t).2.nodes.length := by
  unfold Arena.copyTree
  split
  · have hnone : ∀ i, (none : Option NodeId) = some i → i < a.nodes.length := nofun
    exact ⟨(h.allocateTree hnone).1, Nat.le_refl _⟩
  · next i hroot =>
    obtain ⟨hsound, hthere, hle⟩ := h.copyNode (h.roots t i hroot)
    exact ⟨(hsound.allocateTree fun j hj => Option.some.inj hj ▸ hthere).1, hle⟩

/-! ## 4. Trees beside others -/

/-- An arena has grown out of another one: there is a new tree, the root of which is new and has no parent,
and the nodes and trees that there were are as they were. -/
structure Beside (a b : Arena) (r : TreeId) (i : NodeId) (t : Tree) : Prop where
  root : b.root? r = some i
  stands : b.Stands none i t
  fresh : a.nodes.length ≤ i
  new : a.roots.length ≤ r
  nodes : ∀ k, k < a.nodes.length → b.node? k = a.node? k
  roots : ∀ r', r' < a.roots.length → b.root? r' = a.root? r'

/-- The tree is read from the arena, within the bound of all paths. -/
theorem Beside.read {r : TreeId} {t : Tree} (h : Beside a b r i t) (hdepth : t.depth ≤ b.pathBound) :
    b.toTree? r = .ok (some t) := by
  rw [toTree?, h.root]
  simp only [toTree, h.stands.read hdepth]
  rfl

theorem roots_copyChildren {copyOne : NodeId → CopyState → NodeId × CopyState}
    (hone : ∀ c s, (copyOne c s).2.arena.roots = s.arena.roots) (p : NodeId) (cs : List NodeId)
    (s : CopyState) : (copyChildren copyOne p cs s).arena.roots = s.arena.roots := by
  induction cs generalizing s with
  | nil => rfl
  | cons c cs ih =>
    rw [copyChildren]
    exact (ih _).trans (hone c s)

/-- Copying nodes leaves the trees. -/
theorem roots_copyWithin (bound : Nat) (i : NodeId) (s : CopyState) :
    (copyWithin bound i s).2.arena.roots = s.arena.roots := by
  induction bound generalizing i s with
  | zero => rfl
  | succ bound ih =>
    rw [copyWithin]
    split
    · rfl
    · split
      · rfl
      · exact roots_copyChildren ih _ _ _

/-- Below a new node there are only new ones, as those that there were have the parents that they had. -/
theorem new_of_below (ha : a.links.Forest a.nodes.length) (hb : b.links.Forest b.nodes.length)
    (hframe : ∀ k, k < a.nodes.length → b.node? k = a.node? k) (hj : a.nodes.length ≤ j)
    (hjk : b.links.Below j k) : a.nodes.length ≤ k := by
  induction hjk with
  | refl => exact hj
  | @tail m k _ hmk ih =>
    by_contra hk
    have hparent : b.parentOf k = some m := (hb.parent_iff m k).mpr hmk
    rw [Arena.parentOf, hframe k (Nat.lt_of_not_le hk)] at hparent
    exact Nat.not_lt_of_le ih (ha.within m k ((ha.parent_iff m k).mp hparent)).1

/-- **A copy of a tree is a tree beside it**, made of new nodes only. -/
theorem Sound.beside_copyTree {r : TreeId} {t : Tree} (h : a.Sound) (hread : a.toTree? r = .ok (some t)) :
    ∃ j, Beside a (a.copyTree r).2 (a.copyTree r).1 j t ∧
      ∀ k, (a.copyTree r).2.links.Below j k → a.nodes.length ≤ k := by
  obtain ⟨i, hroot, hread⟩ := toTree?_ok hread
  have hi := (h.reads hread).2.stands
  have hcopied := h.copied (h.roots r i hroot)
  have hrun : a.copyTree r = (a.copyNode i).2.allocateTree (some (a.copyNode i).1) := by
    rw [Arena.copyTree, hroot]
  have hroots : (a.copyNode i).2.roots = a.roots :=
    roots_copyWithin (a.nodes.length + 1) i ⟨a, []⟩
  have hfresh : a.nodes.length ≤ (a.copyNode i).1 := hcopied.fresh.ge
  rw [hrun]
  refine ⟨(a.copyNode i).1, ⟨root?_allocateTree _, ?_, hfresh, hroots.symm ▸ Nat.le_refl _, hcopied.frame, fun r' hr' => ?_⟩, fun k hk => ?_⟩
  · exact (hcopied.copy.stands _ t hi).of_same fun _ _ => rfl
  · simp only [Arena.allocateTree, root?, hroots, List.getElem?_append_left hr']
  · exact new_of_below h.forest hcopied.copying.ordered.forest hcopied.frame hfresh hk

end Arena
end FormulaEvolution
