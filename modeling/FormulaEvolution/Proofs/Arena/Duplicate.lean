/-
# Copies node by node

A copy of a proper tree is the same tree under new names (`Proper.doubled`): its nodes are all the nodes
that have come, one for each node of the tree, with what that has and remembers, and with links to the
copies of those that it is linked with.  So the copy is proper as well, the same tree is read from it, and
what its nodes remember is true if it is so of the tree (`Doubled.proper`, `Doubled.toTree_eq`,
`Doubled.truthful`).

On the way down the copies of a node and of its children so far are told by `Filling`: what is below these
is done, and the shell has their copies.  No node is met a second time, as no two children have anything
below in common.
-/
import FormulaEvolution.Proofs.Arena.Copy
import FormulaEvolution.Proofs.Arena.Proper

namespace FormulaEvolution

/-- A node that is alike by itself and has the renamed links is the renamed node. -/
theorem Node.eq_renamed {f : NodeId → NodeId} {n n' : Node} (halone : n'.alone = n.alone)
    (hchildren : n'.children = n.children.map f) (hparent : n'.parent = n.parent.map f) : n' = n.renamed f := by
  obtain ⟨hform, hsymbol, hlength, hdepth⟩ := Node.of_alone halone
  cases n'
  simp only [Node.renamed, Node.mk.injEq]
  exact ⟨hform, hsymbol, hchildren, hparent, hlength, hdepth⟩

namespace Arena

variable {a b : Arena} {s t : CopyState} {i j k m p c r : NodeId} {n : Node} {f : NodeId → NodeId}

/-! ## 1. Copies by number -/

/-- Copies have the ids that follow, one after the other, and no node has two. -/
structure Numbered (a : Arena) (s : CopyState) : Prop where
  numbers : s.copies.map (·.2) = List.range' a.nodes.length s.copies.length
  count : s.arena.nodes.length = a.nodes.length + s.copies.length
  once : (s.copies.map (·.1)).Nodup

theorem mem_of_copyOf? (h : s.copyOf? k = some m) : (k, m) ∈ s.copies := by
  obtain ⟨pair, hpair, rfl⟩ := Option.map_eq_some_iff.mp h
  have hkey : pair.1 = k := by simpa using List.find?_some hpair
  exact hkey ▸ List.mem_of_find?_eq_some hpair

namespace Numbered

theorem copyOf?_of_mem (h : Numbered a s) (hm : (k, m) ∈ s.copies) : s.copyOf? k = some m := by
  have hsome : (s.copies.find? (·.1 = k)).isSome := List.find?_isSome.mpr ⟨_, hm, decide_eq_true rfl⟩
  obtain ⟨pair, hpair⟩ := Option.isSome_iff_exists.mp hsome
  have hkey : pair.1 = k := by simpa using List.find?_some hpair
  have hsame := List.inj_on_of_nodup_map h.once (List.mem_of_find?_eq_some hpair) hm hkey
  rw [CopyState.copyOf?, hpair, hsame, Option.map_some]

/-- No two nodes have the same copy. -/
theorem injective (h : Numbered a s) (hi : s.copyOf? i = some m) (hk : s.copyOf? k = some m) : i = k := by
  have honce : (s.copies.map (·.2)).Nodup := h.numbers ▸ List.nodup_range'
  exact congrArg Prod.fst
    (List.inj_on_of_nodup_map honce (mem_of_copyOf? hi) (mem_of_copyOf? hk) rfl)

theorem le_copy (h : Numbered a s) (hk : s.copyOf? k = some m) : a.nodes.length ≤ m := by
  have hin := List.mem_map_of_mem (f := (·.2)) (mem_of_copyOf? hk)
  rw [h.numbers, List.mem_range'_1] at hin
  exact hin.1

/-- Every node that has come is a copy. -/
theorem exists_origin (h : Numbered a s) (hle : a.nodes.length ≤ m) (hlt : m < s.arena.nodes.length) :
    ∃ k, s.copyOf? k = some m := by
  have hin : m ∈ s.copies.map (·.2) := by
    rw [h.numbers, List.mem_range'_1]
    exact ⟨hle, h.count ▸ hlt⟩
  obtain ⟨⟨k, m'⟩, hpair, rfl⟩ := List.mem_map.mp hin
  exact ⟨k, h.copyOf?_of_mem hpair⟩

theorem addShell (h : Numbered a s) (hfree : s.copyOf? i = none) : Numbered a (s.addShell i n).2 where
  numbers := by
    simp only [CopyState.addShell, List.map_append, List.length_append, h.numbers, List.map_cons,
      List.map_nil, List.length_cons, List.length_nil, fst_allocate, h.count, List.range'_concat,
      Nat.one_mul]
  count := by
    simp only [CopyState.addShell, length_allocate, List.length_append, List.length_cons,
      List.length_nil, h.count]
    omega
  once := by
    have hnew : i ∉ s.copies.map (·.1) := by
      intro hin
      obtain ⟨pair, hpair, rfl⟩ := List.mem_map.mp hin
      rw [h.copyOf?_of_mem hpair] at hfree
      cases hfree
    simp only [CopyState.addShell, List.map_append, List.map_cons, List.map_nil]
    exact h.once.append (List.nodup_singleton i) (List.disjoint_singleton.mpr hnew)

theorem attach (h : Numbered a s) : Numbered a (s.attach p c) := by
  refine ⟨h.numbers, ?_, h.once⟩
  rw [CopyState.attach, length_setParent, length_alter]
  exact h.count

end Numbered

theorem copyOf?_addShell_self (hfree : s.copyOf? i = none) :
    (s.addShell i n).2.copyOf? i = some s.arena.nodes.length := by
  rw [CopyState.copyOf?, Option.map_eq_none_iff] at hfree
  rw [CopyState.copyOf?, CopyState.addShell, List.find?_append, hfree]
  simp

theorem copyOf?_addShell_of_some (hk : s.copyOf? k = some m) :
    (s.addShell i n).2.copyOf? k = some m := by
  obtain ⟨pair, hpair, rfl⟩ := Option.map_eq_some_iff.mp hk
  rw [CopyState.copyOf?, CopyState.addShell, List.find?_append, hpair]
  rfl

/-! ## 2. Joining -/

theorem node?_attach_parent (hcp : c ≠ p) : (s.attach p c).arena.node? p =
    (s.arena.node? p).map fun n => { n with children := n.children ++ [c] } := by
  simp only [CopyState.attach]
  rw [node?_setParent_of_ne _ hcp.symm, node?_alter, if_pos rfl]

/-- All nodes but the shell keep their children. -/
theorem exists_node?_attach (hkp : k ≠ p) (hn : s.arena.node? k = some n) :
    ∃ n', (s.attach p c).arena.node? k = some n' ∧ n'.alone = n.alone ∧ n'.children = n.children := by
  by_cases hkc : k = c
  · subst hkc
    rw [node?_attach hkp, hn]
    exact ⟨_, rfl, rfl, rfl⟩
  · rw [node?_attach_of_ne hkp hkc]
    exact ⟨n, hn, rfl, rfl⟩

/-- All nodes but the one that joins keep their parents. -/
theorem parentOf_attach (hkc : k ≠ c) : (s.attach p c).arena.parentOf k = s.arena.parentOf k := by
  simp only [CopyState.attach]
  rw [parentOf, parentOf, node?_setParent_of_ne _ hkc, node?_alter]
  split
  · cases s.arena.node? k <;> rfl
  · rfl

theorem parentOf_attach_self (hc : c < s.arena.nodes.length) :
    (s.attach p c).arena.parentOf c = some p := by
  simp only [CopyState.attach]
  rw [parentOf_setParent (by rwa [length_alter]), if_pos rfl]

/-! ## 3. Nodes that are done -/

/-- A node has a copy, which is a child of another copy. -/
def CopyState.Hangs (s : CopyState) (p c d : NodeId) : Prop :=
  s.copyOf? c = some d ∧ s.arena.parentOf d = some p

/-- The copy of a node has all that the node has, and the copies of its children as children. -/
def Done (a : Arena) (s : CopyState) (k : NodeId) : Prop :=
  ∃ m n n', s.copyOf? k = some m ∧ a.node? k = some n ∧ s.arena.node? m = some n' ∧
    n'.alone = n.alone ∧ List.Forall₂ (s.Hangs m) n.children n'.children

/-- More has been copied, and all that there was is as it was. -/
structure Further (a : Arena) (s t : CopyState) : Prop where
  numbered : Numbered a t
  frame : ∀ k, k < s.arena.nodes.length → t.arena.node? k = s.arena.node? k
  grown : s.arena.nodes.length ≤ t.arena.nodes.length
  kept : ∀ k m, s.copyOf? k = some m → t.copyOf? k = some m

theorem Further.trans {u : CopyState} (h : Further a s t) (h' : Further a t u) : Further a s u where
  numbered := h'.numbered
  frame k hk := (h'.frame k (hk.trans_le h.grown)).trans (h.frame k hk)
  grown := h.grown.trans h'.grown
  kept k m hk := h'.kept k m (h.kept k m hk)

theorem Further.hangs {d : NodeId} (h : Further a s t) (hd : s.Hangs p c d) : t.Hangs p c d := by
  refine ⟨h.kept c d hd.1, ?_⟩
  rw [parentOf, h.frame d (lt_of_parent hd.2)]
  exact hd.2

theorem Done.further (hk : Done a s k) (h : Further a s t) : Done a t k := by
  obtain ⟨m, n, n', hcopy, hn, hn', halone, hchildren⟩ := hk
  exact ⟨m, n, n', h.kept k m hcopy, hn, (h.frame m (node?_lt hn')).trans hn', halone,
    hchildren.imp fun _ _ => h.hangs⟩

/-- What is done stays so while another copy joins another shell. -/
theorem Done.attach (hk : Done a s k) (h : Numbered a s) (hi : s.copyOf? i = some p)
    (hc : s.copyOf? c = some j) (hki : k ≠ i) (hck : c ∉ a.childrenOf k) : Done a (s.attach p j) k := by
  obtain ⟨m, n, n', hcopy, hn, hn', halone, hchildren⟩ := hk
  have hmp : m ≠ p := by
    rintro rfl
    exact hki (h.injective hcopy hi)
  obtain ⟨n'', hn'', halone', hsame⟩ := exists_node?_attach (c := j) hmp hn'
  refine ⟨m, n, n'', hcopy, hn, hn'', halone'.trans halone, ?_⟩
  rw [hsame]
  refine forall₂_imp_of_mem hchildren fun d e hd _ hde => ⟨hde.1, ?_⟩
  rw [parentOf_attach, hde.2]
  rintro rfl
  exact hck (h.injective hde.1 hc ▸ childrenOf_of_node? hn ▸ hd)

/-! ## 4. Shells that are filled -/

/-- A node has been copied with all that is below it. -/
structure Duplicated (a : Arena) (i : NodeId) (s : CopyState) (j : NodeId) (t : CopyState) : Prop
    extends Further a s t where
  apart : ∀ k, ¬ a.links.Below i k → s.copyOf? k = none → t.copyOf? k = none
  fresh : j = s.arena.nodes.length
  top : t.copyOf? i = some j
  orphan : t.arena.parentOf j = none
  done : ∀ k, a.links.Below i k → Done a t k

/-- A node has a shell, and some children have been copied with all that is below them. -/
structure Filling (a : Arena) (i : NodeId) (n : Node) (s : CopyState) (copied : List NodeId)
    (t : CopyState) : Prop extends Further a s t where
  apart : ∀ k, k ≠ i → (∀ c ∈ copied, ¬ a.links.Below c k) → s.copyOf? k = none → t.copyOf? k = none
  top : t.copyOf? i = some s.arena.nodes.length
  shell : ∃ n', t.arena.node? s.arena.nodes.length = some n' ∧ n'.alone = n.alone ∧ n'.parent = none ∧
    List.Forall₂ (t.Hangs s.arena.nodes.length) copied n'.children
  done : ∀ c ∈ copied, ∀ k, a.links.Below c k → Done a t k

theorem Duplicated.there (h : Duplicated a i s j t) : j < t.arena.nodes.length := by
  obtain ⟨m, n, n', hcopy, -, hn', -⟩ := h.done i .refl
  obtain rfl := Option.some.inj (h.top.symm.trans hcopy)
  exact node?_lt hn'

theorem filling_addShell (h : Numbered a s) (hfree : s.copyOf? i = none) :
    Filling a i n s [] (s.addShell i n).2 where
  numbered := h.addShell hfree
  frame k hk := (node?_allocate _ _ k).trans (if_neg (Nat.ne_of_lt hk))
  grown := (Nat.le_succ _).trans (length_allocate _).ge
  kept _ _ hk := copyOf?_addShell_of_some hk
  apart _ hki _ hk := copyOf?_addShell hk (Ne.symm hki)
  top := copyOf?_addShell_self hfree
  shell := ⟨_, (node?_allocate _ _ _).trans (if_pos rfl), rfl, rfl, .nil⟩
  done := nofun

section Trees

variable (h : a.Proper r) (hi : a.links.Below r i)

include h hi

/-- **The copy of a further child joins the shell.** -/
theorem Filling.join {copied : List NodeId} {u : CopyState} (hf : Filling a i n s copied t)
    (hcopied : ∀ c ∈ copied, c ∈ a.childrenOf i) (hc : c ∈ a.childrenOf i) (hd : Duplicated a c t j u) :
    Filling a i n s (copied ++ [c]) (u.attach s.arena.nodes.length j) := by
  obtain ⟨n', hn', halone, hparent, hchildren⟩ := hf.shell
  have hlt := node?_lt hn'
  have hne : j ≠ s.arena.nodes.length := hd.fresh ▸ Nat.ne_of_gt hlt
  have hboth : Further a s u := hf.toFurther.trans hd.toFurther
  have hstays : ∀ d ∈ a.childrenOf i, ∀ k, a.links.Below d k → Done a u k →
      Done a (u.attach s.arena.nodes.length j) k := fun d hdi k hk hdone => by
    have hki : k ≠ i := by
      rintro rfl
      exact h.not_below_of_child hi hdi hk
    refine hdone.attach hd.numbered (hd.kept _ _ hf.top) hd.top hki fun hck => hki ?_
    have hparent := (h.linked i c (.inl hi)).mpr hc
    rw [(h.linked k c (.inl ((hi.tail hdi).trans hk))).mpr hck] at hparent
    exact Option.some.inj hparent
  exact {
    numbered := hd.numbered.attach
    frame := fun k hk => by
      rw [node?_attach_of_ne (Nat.ne_of_lt hk) (hd.fresh ▸ Nat.ne_of_lt (hk.trans_le hf.grown)),
        hboth.frame k hk]
    grown := hboth.grown.trans (by rw [CopyState.attach, length_setParent, length_alter])
    kept := hboth.kept
    apart := fun k hki hnot hk => hd.apart k (hnot c (List.mem_append_right _ (List.mem_singleton_self c)))
      (hf.apart k hki (fun d hd => hnot d (List.mem_append_left _ hd)) hk)
    top := hd.kept _ _ hf.top
    shell := by
      refine ⟨{ n' with children := n'.children ++ [j] }, ?_, halone, hparent, List.rel_append ?_ ?_⟩
      · rw [node?_attach_parent hne, hd.frame _ hlt, hn', Option.map_some]
      · refine hchildren.imp fun d e hde => ⟨hd.kept d e hde.1, ?_⟩
        rw [parentOf_attach, (hd.hangs hde).2]
        rw [hd.fresh]
        exact Nat.ne_of_lt (lt_of_parent hde.2)
      · exact .cons ⟨hd.top, parentOf_attach_self hd.there⟩ .nil
    done := fun d hin k hk => by
      rcases List.mem_append.mp hin with hin | hin
      · exact hstays d (hcopied d hin) k hk ((hf.done d hin k hk).further hd.toFurther)
      · obtain rfl := List.mem_singleton.mp hin
        exact hstays d hc k hk (hd.done k hk) }

/-- The children are copied one after the other. -/
theorem Filling.copyChildren {copyOne : NodeId → CopyState → NodeId × CopyState}
    (hone : ∀ c ∈ a.childrenOf i, ∀ s, Numbered a s →
      (∀ k, k < a.nodes.length → s.arena.node? k = a.node? k) →
      (∀ k, a.links.Below c k → s.copyOf? k = none) →
      Duplicated a c s (copyOne c s).1 (copyOne c s).2)
    (hs : Numbered a s) (hold : ∀ k, k < a.nodes.length → s.arena.node? k = a.node? k) :
    ∀ {cs copied : List NodeId} {t : CopyState}, Filling a i n s copied t →
      (∀ c ∈ copied ++ cs, c ∈ a.childrenOf i) →
      cs.Pairwise (fun c d => ∀ k, a.links.Below c k → ¬ a.links.Below d k) →
      (∀ c ∈ cs, ∀ k, a.links.Below c k → t.copyOf? k = none) →
      Filling a i n s (copied ++ cs) (Arena.copyChildren copyOne s.arena.nodes.length cs t)
  | [], copied, t, hf, _, _, _ => by rwa [Arena.copyChildren, List.append_nil]
  | c :: cs, copied, t, hf, hin, hapart, hfree => by
    obtain ⟨hfirst, hrest⟩ := List.pairwise_cons.mp hapart
    have hc : c ∈ a.childrenOf i := hin c (List.mem_append_right _ List.mem_cons_self)
    have hgrown : a.nodes.length ≤ s.arena.nodes.length := hs.count ▸ Nat.le_add_right _ _
    have hd := hone c hc t hf.numbered
      (fun k hk => (hf.frame k (hk.trans_le hgrown)).trans (hold k hk)) (hfree c List.mem_cons_self)
    have hjoined := hf.join h hi (fun d hd => hin d (List.mem_append_left _ hd)) hc hd
    rw [Arena.copyChildren, List.append_cons]
    refine copyChildren hone hs hold hjoined (fun d hd => hin d ?_) hrest fun d hd' k hk => ?_
    · rwa [List.append_assoc, List.singleton_append] at hd
    · exact hd.apart k (fun hck => hfirst d hd' k hck hk) (hfree d (List.mem_cons_of_mem c hd') k hk)

end Trees

/-- A node is done when all its children are. -/
theorem Filling.duplicated (hn : a.node? i = some n) (hf : Filling a i n s n.children t) :
    Duplicated a i s s.arena.nodes.length t := by
  have hchildren : n.children = a.childrenOf i := (childrenOf_of_node? hn).symm
  obtain ⟨n', hn', halone, hparent, hcopies⟩ := hf.shell
  exact {
    toFurther := hf.toFurther
    apart := fun k hk => hf.apart k (fun heq => hk (heq ▸ .refl)) fun c hc hck =>
      hk (.head (isChild_of_node? hn hc) hck)
    fresh := rfl
    top := hf.top
    orphan := (parentOf_of_node? hn').trans hparent
    done := fun k hk => by
      rcases Relation.ReflTransGen.cases_head hk with rfl | ⟨c, hc, hck⟩
      · exact ⟨_, n, n', hf.top, hn, hn', halone, hcopies⟩
      · exact hf.done c (hchildren ▸ hc) k hck }

/-- **Copying a node of a proper tree copies all that is below it.**  The induction is on the bound, which
is enough for all nodes below. -/
theorem Proper.duplicated (h : a.Proper r) : ∀ {bound : Nat} {i : NodeId} {s : CopyState},
    a.links.Below r i → a.links.size i ≤ bound → Numbered a s →
      (∀ k, k < a.nodes.length → s.arena.node? k = a.node? k) →
      (∀ k, a.links.Below i k → s.copyOf? k = none) →
      Duplicated a i s (copyWithin bound i s).1 (copyWithin bound i s).2
  | 0, i, _, hi, hbound, _, _, _ => absurd (h.size_pos hi) (by omega)
  | bound + 1, i, s, hi, hbound, hs, hold, hfree => by
    obtain ⟨n, hn⟩ := exists_node? (h.lt_of_below hi)
    have hchildren : n.children = a.childrenOf i := (childrenOf_of_node? hn).symm
    have hcopied : copiedChildren n = n.children := by
      rw [copiedChildren]
      split
      · rfl
      · next hform => exact (h.leaves i n hi hn fun heq => hform heq).symm
    rw [copyWithin_new (hfree i .refl) ((hold i (h.lt_of_below hi)).trans hn), hcopied]
    have hone : ∀ c ∈ a.childrenOf i, ∀ t, Numbered a t →
        (∀ k, k < a.nodes.length → t.arena.node? k = a.node? k) →
        (∀ k, a.links.Below c k → t.copyOf? k = none) →
        Duplicated a c t (copyWithin bound c t).1 (copyWithin bound c t).2 := fun c hc t ht hold' hfree' => by
      have hsize := h.size_lt hi hc
      exact h.duplicated (hi.tail hc) (by omega) ht hold' hfree'
    have hfree' : ∀ c ∈ n.children, ∀ k, a.links.Below c k → (s.addShell i n).2.copyOf? k = none := by
      intro c hc k hk
      rw [hchildren] at hc
      refine copyOf?_addShell (hfree k (.head hc hk)) ?_
      rintro rfl
      exact h.not_below_of_child hi hc hk
    have hapart := h.children_apart hi
    rw [← hchildren] at hapart
    exact Filling.duplicated hn (Filling.copyChildren h hi hone hs hold
      (filling_addShell hs (hfree i .refl)) (fun c hc => hchildren ▸ hc) hapart hfree')

/-! ## 5. The tree under other names -/

/-- An arena has grown by the nodes of a tree under other names. -/
structure Doubled (a b : Arena) (r : NodeId) (f : NodeId → NodeId) : Prop where
  old : ∀ k, k < a.nodes.length → b.node? k = a.node? k
  node : ∀ k, a.links.Below r k → b.node? (f k) = (a.node? k).map (Node.renamed f)
  new : ∀ k, a.links.Below r k → a.nodes.length ≤ f k
  only : ∀ m, a.nodes.length ≤ m → m < b.nodes.length → ∃ k, a.links.Below r k ∧ f k = m
  apart : ∀ i k, a.links.Below r i → a.links.Below r k → f i = f k → i = k
  grown : a.nodes.length ≤ b.nodes.length

/-- Copies that hang below a shell are the nodes under their new names. -/
theorem map_of_hangs {cs ds : List NodeId} (hf : ∀ {k m}, t.copyOf? k = some m → f k = m)
    (h : List.Forall₂ (t.Hangs p) cs ds) : ds = cs.map f := by
  induction h with
  | nil => rfl
  | cons hc _ ih => rw [List.map_cons, hf hc.1, ih]

/-- A copy hangs below the copy of the parent, which tells so of all its children. -/
theorem Proper.parentOf_copy (h : a.Proper r) (hd : Duplicated a r s j t)
    (hf : ∀ {k m}, t.copyOf? k = some m → f k = m) (hk : a.links.Below r k) (hm : t.copyOf? k = some m) :
    t.arena.parentOf m = (a.parentOf k).map f := by
  rcases Relation.ReflTransGen.cases_tail hk with rfl | ⟨q, hq, hqk⟩
  · obtain rfl := Option.some.inj (hd.top.symm.trans hm)
    rw [h.top, hd.orphan, Option.map_none]
  · obtain ⟨o, n, n', ho, hn, -, -, hhangs⟩ := hd.done q hq
    have hin : k ∈ n.children := childrenOf_of_node? hn ▸ (hqk : k ∈ a.childrenOf q)
    obtain ⟨e, -, he⟩ := exists_of_forall₂ hhangs.flip hin
    rw [(h.linked q k (.inl hq)).mpr hqk, Option.map_some, hf ho, Option.some.inj (hm.symm.trans he.1), he.2]

/-- **A copy of a proper tree is the same tree under new names.** -/
theorem Proper.doubled (h : a.Proper r) :
    ∃ f, (a.copyNode r).1 = f r ∧ Doubled a (a.copyNode r).2 r f := by
  have hstart : Numbered a ⟨a, []⟩ := ⟨rfl, rfl, List.nodup_nil⟩
  have hd := h.duplicated .refl ((h.size_le .refl).trans (Nat.le_succ _)) hstart (fun _ _ => rfl)
    fun _ _ => rfl
  obtain ⟨t, ht⟩ : ∃ t, t = (copyWithin (a.nodes.length + 1) r ⟨a, []⟩).2 := ⟨_, rfl⟩
  obtain ⟨j, hj⟩ : ∃ j, j = (copyWithin (a.nodes.length + 1) r ⟨a, []⟩).1 := ⟨_, rfl⟩
  have hrun : a.copyNode r = (j, t.arena) := by rw [hj, ht]; rfl
  rw [← ht, ← hj] at hd
  rw [hrun]
  obtain ⟨f, hf⟩ : ∃ f : NodeId → NodeId, f = fun k => (t.copyOf? k).getD 0 := ⟨_, rfl⟩
  have hname : ∀ {k m}, t.copyOf? k = some m → f k = m := fun hk => by
    simp only [hf, hk, Option.getD_some]
  have hcopy : ∀ k, a.links.Below r k → t.copyOf? k = some (f k) := fun k hk => by
    obtain ⟨m, -, -, hm, -⟩ := hd.done k hk
    rw [hm, hname hm]
  have hbelow : ∀ {k m}, t.copyOf? k = some m → a.links.Below r k := fun hk => by
    by_contra hnot
    rw [hd.apart _ hnot rfl] at hk
    cases hk
  refine ⟨f, (hname hd.top).symm, {
    old := hd.frame
    node := fun k hk => ?_
    new := fun k hk => hd.numbered.le_copy (hcopy k hk)
    only := fun m hle hlt => ?_
    apart := fun i k hi hk heq => hd.numbered.injective (hcopy i hi) (heq ▸ hcopy k hk)
    grown := hd.grown }⟩
  · obtain ⟨m, n, n', hm, hn, hn', halone, hchildren⟩ := hd.done k hk
    have hparent := h.parentOf_copy hd hname hk hm
    rw [parentOf_of_node? hn', parentOf_of_node? hn] at hparent
    rw [hname hm, hn', hn, Option.map_some]
    exact congrArg some (Node.eq_renamed halone (map_of_hangs hname hchildren) hparent)
  · obtain ⟨k, hk⟩ := hd.numbered.exists_origin hle hlt
    exact ⟨k, hbelow hk, hname hk⟩

/-! ## 6. What the copy is -/

namespace Doubled

variable (h : Doubled a b r f)

include h

theorem childrenOf (hk : a.links.Below r k) : b.childrenOf (f k) = (a.childrenOf k).map f := by
  rw [Arena.childrenOf, Arena.childrenOf, h.node k hk]
  cases a.node? k <;> rfl

theorem parentOf (hk : a.links.Below r k) : b.parentOf (f k) = (a.parentOf k).map f := by
  rw [Arena.parentOf, Arena.parentOf, h.node k hk]
  cases a.node? k <;> rfl

theorem isChild_iff {x : NodeId} (hk : a.links.Below r k) :
    b.links.IsChild (f k) x ↔ ∃ c, a.links.IsChild k c ∧ f c = x := by
  have hchildren : b.links.children (f k) = (a.links.children k).map f := h.childrenOf hk
  rw [Links.IsChild, hchildren, List.mem_map]
  rfl

/-- Below a copy are the copies of what is below the node. -/
theorem below_iff (hi : a.links.Below r i) :
    b.links.Below (f i) m ↔ ∃ k, a.links.Below i k ∧ f k = m := by
  constructor
  · intro hm
    induction hm with
    | refl => exact ⟨i, .refl, rfl⟩
    | tail _ hx ih =>
      obtain ⟨k, hk, rfl⟩ := ih
      obtain ⟨c, hc, rfl⟩ := (h.isChild_iff (hi.trans hk)).mp hx
      exact ⟨c, hk.tail hc, rfl⟩
  · rintro ⟨k, hk, rfl⟩
    induction hk with
    | refl => exact .refl
    | @tail k c hk hc ih => exact ih.tail ((h.isChild_iff (hi.trans hk)).mpr ⟨c, hc, rfl⟩)

/-- **A copy has as many nodes below and paths of the same lengths.** -/
theorem twins (hi : a.links.Below r i) : Links.Twins a.links b.links i (f i) where
  size := by
    have himage : {m | b.links.Below (f i) m} = f '' {k | a.links.Below i k} :=
      Set.ext fun m => h.below_iff hi
    have honce : Set.InjOn f {k | a.links.Below i k} := fun x hx y hy =>
      h.apart x y (hi.trans hx) (hi.trans hy)
    rw [Links.size, Links.size, himage, honce.ncard_image]
  descent d := by
    constructor
    · intro hd
      generalize hx : f i = x at hd
      induction hd generalizing i with
      | here => exact .here i
      | down hy _ ih =>
        subst hx
        obtain ⟨c, hc, hcy⟩ := (h.isChild_iff hi).mp hy
        exact .down hc (ih (hi.tail hc) hcy)
    · intro hd
      induction hd with
      | here => exact .here _
      | @down i c d hc _ ih => exact .down ((h.isChild_iff hi).mpr ⟨c, hc, rfl⟩) (ih (hi.tail hc))

/-- **What a copy remembers is true if it is true of the node.** -/
theorem truthful (hk : a.links.Below r k) (htrue : a.Truthful k) : b.Truthful (f k) := by
  intro n' hn'
  rw [h.node k hk] at hn'
  obtain ⟨n, hn, rfl⟩ := Option.map_eq_some_iff.mp hn'
  have hcopy := (htrue n hn).of_twins (h.twins hk)
  exact ⟨hcopy.length, hcopy.depth⟩

/-- No link leads from new nodes to those that there were. -/
theorem shut {X : NodeId → Prop} (hp : a.Proper r) (hshut : Shut X a) (hX : ∀ k, X k → k < a.nodes.length) :
    Shut X b := by
  intro i n hi hn
  rcases Nat.lt_or_ge i a.nodes.length with hlt | hge
  · exact hshut i n hi ((h.old i hlt).symm.trans hn)
  · obtain ⟨k, hk, rfl⟩ := h.only i hge (node?_lt hn)
    constructor
    · intro c hc hXc
      rw [← childrenOf_of_node? hn, h.childrenOf hk] at hc
      obtain ⟨d, hd, rfl⟩ := List.mem_map.mp hc
      exact Nat.not_lt_of_le (h.new d (hk.tail hd)) (hX _ hXc)
    · intro p hparent hXp
      rw [← parentOf_of_node? hn, h.parentOf hk] at hparent
      obtain ⟨q, hq, rfl⟩ := Option.map_eq_some_iff.mp hparent
      exact Nat.not_lt_of_le (h.new q (hp.below_parent hk hq)) (hX _ hXp)

/-- A node that is linked with a copy is one: the links of nodes that there were lead to such nodes. -/
theorem exists_origin (hclosed : Shut (a.nodes.length ≤ ·) a) (hk : a.links.Below r k) {x : NodeId}
    (hlink : b.parentOf x = some (f k) ∨ f k ∈ b.childrenOf x) : ∃ i, a.links.Below r i ∧ f i = x := by
  rcases Nat.lt_or_ge x a.nodes.length with hlt | hge
  · obtain ⟨n, hn⟩ := exists_node? hlt
    obtain ⟨hchildren, hparent⟩ := hclosed x n (Nat.not_le.mpr hlt) hn
    rw [Arena.parentOf, Arena.childrenOf, h.old x hlt, hn] at hlink
    rcases hlink with hlink | hlink
    · exact absurd (h.new k hk) (hparent _ hlink)
    · exact absurd (h.new k hk) (hchildren _ hlink)
  · rcases hlink with hlink | hlink
    · exact h.only x hge (lt_of_parent hlink)
    · exact h.only x hge (lt_of_child hlink)

/-- The links between copies agree as those between the nodes do. -/
theorem linked_iff (hp : a.Proper r) (hi : a.links.Below r i) (hk : a.links.Below r k) :
    b.parentOf (f k) = some (f i) ↔ f k ∈ b.childrenOf (f i) := by
  rw [h.parentOf hk, h.childrenOf hi, Option.map_eq_some_iff, List.mem_map]
  constructor
  · rintro ⟨q, hq, hqi⟩
    obtain rfl := h.apart q i (hp.below_parent hk hq) hi hqi
    exact ⟨k, (hp.linked q k (.inl hi)).mp hq, rfl⟩
  · rintro ⟨c, hc, hck⟩
    obtain rfl := h.apart c k (hi.tail hc) hk hck
    exact ⟨i, (hp.linked i c (.inl hi)).mpr hc, rfl⟩

/-- Two linked nodes are both copies if one of them is. -/
theorem exists_origins (hp : a.Proper r) (hclosed : Shut (a.nodes.length ≤ ·) a) {x y : NodeId}
    (hxy : b.links.Below (f r) x ∨ b.links.Below (f r) y)
    (hlink : b.parentOf y = some x ∨ y ∈ b.childrenOf x) :
    ∃ i k, a.links.Below r i ∧ a.links.Below r k ∧ f i = x ∧ f k = y := by
  rcases hxy with hx | hy
  · obtain ⟨i, hi, rfl⟩ := (h.below_iff .refl).mp hx
    rcases hlink with hparent | hchild
    · obtain ⟨k, hk, rfl⟩ := h.exists_origin hclosed hi (.inl hparent)
      exact ⟨i, k, hi, hk, rfl, rfl⟩
    · obtain ⟨k, hk, rfl⟩ := List.mem_map.mp (h.childrenOf hi ▸ hchild)
      exact ⟨i, k, hi, hi.tail hk, rfl, rfl⟩
  · obtain ⟨k, hk, rfl⟩ := (h.below_iff .refl).mp hy
    rcases hlink with hparent | hchild
    · obtain ⟨i, hi, rfl⟩ := Option.map_eq_some_iff.mp (h.parentOf hk ▸ hparent)
      exact ⟨i, k, hp.below_parent hk hi, hk, rfl, rfl⟩
    · obtain ⟨i, hi, rfl⟩ := h.exists_origin hclosed hk (.inr hchild)
      exact ⟨i, k, hi, hk, rfl, rfl⟩

/-- **The copy of a proper tree is proper.** -/
theorem proper (hp : a.Proper r) (hclosed : Shut (a.nodes.length ≤ ·) a) : b.Proper (f r) where
  there := by
    obtain ⟨n, hn⟩ := exists_node? hp.there
    exact node?_lt ((h.node r .refl).trans (by rw [hn, Option.map_some]))
  top := by rw [h.parentOf .refl, hp.top, Option.map_none]
  linked x y hxy := by
    constructor
    · intro hparent
      obtain ⟨i, k, hi, hk, rfl, rfl⟩ := h.exists_origins hp hclosed hxy (.inl hparent)
      exact (h.linked_iff hp hi hk).mp hparent
    · intro hchild
      obtain ⟨i, k, hi, hk, rfl, rfl⟩ := h.exists_origins hp hclosed hxy (.inr hchild)
      exact (h.linked_iff hp hi hk).mpr hchild
  once x hx := by
    obtain ⟨k, hk, rfl⟩ := (h.below_iff .refl).mp hx
    rw [h.childrenOf hk]
    exact (hp.once k hk).map_on fun c hc d hd => h.apart c d (hk.tail hc) (hk.tail hd)
  leaves x n' hx hn' hform := by
    obtain ⟨k, hk, rfl⟩ := (h.below_iff .refl).mp hx
    rw [h.node k hk] at hn'
    obtain ⟨n, hn, rfl⟩ := Option.map_eq_some_iff.mp hn'
    exact congrArg (List.map f) (hp.leaves k n hk hn hform)

/-- **The same tree is read from a copy.** -/
theorem toTree_eq (hp : a.Proper r) (hk : a.links.Below r k) : b.toTree (f k) = a.toTree k := by
  have hsize := hp.size_le hk
  have hgrown := h.grown
  exact toTreeWithin_renamed f (a.links.Below r) a.links.size h.node
    (fun i hi => hp.size_pos hi) (fun i hi c hc => ⟨hi.tail hc, hp.size_lt hi hc⟩) hk
    (by rw [pathBound]; omega) (by rw [pathBound]; omega)

end Doubled

end Arena
end FormulaEvolution
