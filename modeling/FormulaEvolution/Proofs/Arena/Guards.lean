/-
# Nodes left alone

A set of nodes that no link leads to from outside stays as it is, memories included, while a session
names other nodes only (`Session.guards_through`).  Whatever is walked to from other nodes, upwards or
downwards, is outside of the set, and new nodes are as well.

Taken for the ids that no node has, the same says that links and roots lead to nodes that are there
(`Moved.closed`).
-/
import FormulaEvolution.Proofs.Arena.Edits

namespace FormulaEvolution
namespace Arena

variable {X : NodeId → Prop} {T : TreeId → Prop} {a b d : Arena} {p c i j k : NodeId} {n : Node}
  {q : Option NodeId} {t : TreeId}

/-! ## 1. Guards -/

/-- The nodes of a set are as they were, and still no link leads to them from outside. -/
structure Guards (X : NodeId → Prop) (a b : Arena) : Prop where
  shut : Shut X b
  spared : ∀ k, X k → b.node? k = a.node? k

theorem Guards.refl (h : Shut X a) : Guards X a a := ⟨h, fun _ _ => rfl⟩

theorem Guards.trans (h : Guards X a b) (h' : Guards X b d) : Guards X a d :=
  ⟨h'.shut, fun k hk => (h'.spared k hk).trans (h.spared k hk)⟩

/-- The nodes of an arena decide alone. -/
theorem Guards.congr (h : Guards X a b) (hnodes : d.nodes = b.nodes) : Guards X a d := by
  have hsame : ∀ k, d.node? k = b.node? k := fun k => congrArg (·[k]?) hnodes
  exact ⟨fun i n hi hn => h.shut i n hi (hsame i ▸ hn), fun k hk => (hsame k).trans (h.spared k hk)⟩

section Moving

variable (h : Shut X a)

include h

theorem Shut.guards_alter {f : Node → Node} (hi : ¬X i)
    (hf : ∀ n, a.node? i = some n → (f n).Outside X) : Guards X a (a.alter i f) := by
  refine ⟨fun j n hj hn => ?_, fun k hk => ?_⟩
  · rw [node?_alter] at hn
    split at hn
    · next hij =>
      subst hij
      obtain ⟨m, hm, rfl⟩ := Option.map_eq_some_iff.mp hn
      exact ⟨(hf m hm).children, (hf m hm).parent⟩
    · exact h j n hj hn
  · rw [node?_alter, if_neg]
    rintro rfl
    exact hi hk

/-- A node that keeps its links may be altered in any other way. -/
theorem Shut.guards_alter_same {f : Node → Node} (hi : ¬X i)
    (hf : ∀ n, (f n).children = n.children ∧ (f n).parent = n.parent) : Guards X a (a.alter i f) := by
  refine h.guards_alter hi fun n hn => ?_
  obtain ⟨hchildren, hparent⟩ := h i n hi hn
  exact ⟨(hf n).1 ▸ hchildren, (hf n).2 ▸ hparent⟩

theorem Shut.guards_setParent (hc : ¬X c) (hq : ∀ p, q = some p → ¬X p) :
    Guards X a (a.setParent c q) :=
  h.guards_alter hc fun n hn => ⟨(h c n hc hn).1, hq⟩

theorem Shut.guards_setChildren {cs : List NodeId} (hp : ¬X p) (hcs : ∀ c ∈ cs, ¬X c) :
    Guards X a (a.setChildren p cs) :=
  h.guards_alter hp fun n hn => ⟨hcs, (h p n hp hn).2⟩

/-- Above a node outside there are only nodes outside. -/
theorem Shut.not_mem_chain {bound : Nat} (hp : ¬X p) (hi : i ∈ a.chain bound p) : ¬X i := by
  induction bound generalizing p with
  | zero => cases hi
  | succ bound ih =>
    rw [chain] at hi
    rcases List.mem_cons.mp hi with rfl | hi
    · exact hp
    · cases hparent : a.parentOf p with
      | none =>
        rw [hparent] at hi
        cases hi
      | some r =>
        rw [hparent] at hi
        obtain ⟨n, hn, hr⟩ := Option.bind_eq_some_iff.mp hparent
        exact ih ((h p n hp hn).2 r hr) hi

theorem Shut.guards_forgetAll {is : List NodeId} (his : ∀ i ∈ is, ¬X i) :
    Guards X a (a.forgetAll is) := by
  induction is generalizing a with
  | nil => exact .refl h
  | cons i is ih =>
    have hfirst : Guards X a (a.alter i Node.forgotten) :=
      h.guards_alter_same (his i List.mem_cons_self) fun _ => ⟨rfl, rfl⟩
    exact hfirst.trans (ih hfirst.shut fun j hj => his j (List.mem_cons_of_mem i hj))

theorem Shut.guards_forgetUpward (hp : ¬X p) : Guards X a (a.forgetUpward p) :=
  h.guards_forgetAll fun _ hi => h.not_mem_chain hp hi

theorem Shut.guards_allocate (hnew : ¬X a.nodes.length) (hn : n.Outside X) :
    Guards X a (a.allocate n).2 := by
  refine ⟨fun j m hj hm => ?_, fun k hk => ?_⟩
  · rw [node?_allocate] at hm
    split at hm
    · obtain rfl := Option.some.inj hm
      exact ⟨hn.children, hn.parent⟩
    · exact h j m hj hm
  · rw [node?_allocate, if_neg]
    rintro rfl
    exact hnew hk

/-! ## 2. Children -/

/-- Children are given, a node gets a parent, and the nodes above forget. -/
theorem Shut.guards_place {cs : List NodeId} (hp : ¬X p) (hcs : ∀ c ∈ cs, ¬X c) (hc : ¬X c)
    (hq : ∀ r, q = some r → ¬X r) :
    Guards X a (((a.setChildren p cs).setParent c q).forgetUpward p) := by
  have hchildren := h.guards_setChildren hp hcs
  have hparent := hchildren.shut.guards_setParent hc hq
  exact (hchildren.trans hparent).trans (hparent.shut.guards_forgetUpward hp)

theorem Shut.guards_insertChild {index : Int} (hp : ¬X p) (hc : ¬X c)
    (hb : a.insertChild p index (some c) = .ok b) : Guards X a b := by
  obtain ⟨n, c', hn, hc', -, rfl⟩ := insertChild_ok hb
  obtain rfl := Option.some.inj hc'
  refine h.guards_place hp (fun d hd => ?_) hc fun r hr => Option.some.inj hr ▸ hp
  rcases List.eq_or_mem_of_mem_insertIdx hd with rfl | hd
  · exact hc
  · exact (h p n hp hn).1 d hd

theorem Shut.guards_removeChild {index : Int} (hp : ¬X p) (hb : a.removeChild p index = .ok (c, b)) :
    Guards X a b := by
  obtain ⟨n, hn, hat, -, rfl⟩ := removeChild_ok hb
  have hall := (h p n hp hn).1
  exact h.guards_place hp (fun d hd => hall d (List.mem_of_mem_eraseIdx hd))
    (hall c (List.mem_of_getElem? hat)) nofun

theorem Shut.guards_replaceChild {old : NodeId} {index : Int} (hp : ¬X p) (hc : ¬X c)
    (hb : a.replaceChild p index (some c) = .ok (old, b)) : Guards X a b := by
  obtain ⟨n, c', hn, hc', hat, rfl⟩ := replaceChild_ok hb
  obtain rfl := Option.some.inj hc'
  have hall := (h p n hp hn).1
  have hfreed := h.guards_setParent (q := none) (hall old (List.mem_of_getElem? hat)) nofun
  refine hfreed.trans (hfreed.shut.guards_place hp (fun d hd => ?_) hc fun r hr => Option.some.inj hr ▸ hp)
  rcases List.mem_or_eq_of_mem_set hd with hd | rfl
  · exact hall d hd
  · exact hc

end Moving

/-! ## 3. Trees planted -/

mutual

theorem roots_plant (q : Option NodeId) : ∀ (a : Arena) (t : Tree), (a.plant q t).2.roots = a.roots
  | _, .constant .. => rfl
  | _, .variable .. => rfl
  | _, .node _ cs => roots_plantAll _ _ cs

theorem roots_plantAll (p : NodeId) : ∀ (a : Arena) (cs : List Tree),
    (a.plantAll p cs).2.roots = a.roots
  | _, [] => rfl
  | a, c :: cs => (roots_plantAll p _ cs).trans (roots_plant (some p) a c)

end

mutual

/-- New nodes are linked with each other and with the parent that they are planted below. -/
theorem Shut.guards_plant {q : Option NodeId} (hq : ∀ p, q = some p → ¬X p) : ∀ {a : Arena}, Shut X a →
    ∀ (t : Tree), (∀ k, a.nodes.length ≤ k → k < (a.plant q t).2.nodes.length → ¬X k) →
      Guards X a (a.plant q t).2 ∧ ¬X (a.plant q t).1
  | a, h, .constant s v, hnew => by
    have hroot : ¬X a.nodes.length := hnew _ (Nat.le_refl _) (by rw [plant, length_allocate]; omega)
    exact ⟨h.guards_allocate hroot ⟨nofun, hq⟩, hroot⟩
  | a, h, .variable s, hnew => by
    have hroot : ¬X a.nodes.length := hnew _ (Nat.le_refl _) (by rw [plant, length_allocate]; omega)
    exact ⟨h.guards_allocate hroot ⟨nofun, hq⟩, hroot⟩
  | a, h, .node s cs, hnew => by
    rw [plant] at hnew ⊢
    simp only [length_setChildren] at hnew
    have hcount := length_plantAll a.nodes.length
      (a.allocate { form := .plain, symbol := s, parent := q }).2 cs
    rw [length_allocate] at hcount
    simp only [fst_allocate] at hnew ⊢
    have hroot : ¬X a.nodes.length := hnew _ (Nat.le_refl _) (by omega)
    have hshell : Guards X a (a.allocate { form := .plain, symbol := s, parent := q }).2 :=
      h.guards_allocate hroot ⟨nofun, hq⟩
    obtain ⟨hbelow, hcs⟩ := hshell.shut.guards_plantAll hroot cs fun k hk hlt => by
      rw [length_allocate] at hk
      exact hnew k (by omega) hlt
    exact ⟨(hshell.trans hbelow).trans (hbelow.shut.guards_setChildren hroot hcs), hroot⟩

theorem Shut.guards_plantAll {p : NodeId} (hp : ¬X p) : ∀ {a : Arena}, Shut X a → ∀ (cs : List Tree),
    (∀ k, a.nodes.length ≤ k → k < (a.plantAll p cs).2.nodes.length → ¬X k) →
      Guards X a (a.plantAll p cs).2 ∧ ∀ c ∈ (a.plantAll p cs).1, ¬X c
  | a, h, [], _ => ⟨.refl h, nofun⟩
  | a, h, c :: cs, hnew => by
    rw [plantAll] at hnew ⊢
    simp only at hnew ⊢
    have hfirst := length_plant_le (some p) a c
    have hrest := length_plantAll_le p (a.plant (some p) c).2 cs
    obtain ⟨hplant, hroot⟩ := h.guards_plant (q := some p) (fun r hr => Option.some.inj hr ▸ hp) c
      fun k hk hlt => hnew k hk (hlt.trans_le hrest)
    obtain ⟨hplants, hroots⟩ := hplant.shut.guards_plantAll hp cs
      fun k hk hlt => hnew k (hfirst.trans hk) hlt
    refine ⟨hplant.trans hplants, fun d hd => ?_⟩
    rcases List.mem_cons.mp hd with rfl | hd
    · exact hroot
    · exact hroots d hd

end

/-! ## 4. Copies -/

/-- What shells and attachments keep while nodes are copied: something of the state, and something of all
nodes that are copied or are copies, as long as there are no more nodes than a bound. -/
structure CopyKeeps (bound : Nat) (P : CopyState → Prop) (O : NodeId → Prop) : Prop where
  found : ∀ {s i j}, P s → s.copyOf? i = some j → O j
  shell : ∀ {s i n}, P s → O i → s.copyOf? i = none → s.arena.node? i = some n →
    s.arena.nodes.length < bound → P (s.addShell i n).2 ∧ O s.arena.nodes.length
  child : ∀ {s i n c}, P s → O i → s.arena.node? i = some n → c ∈ n.children → O c
  attach : ∀ {s p c}, P s → O p → O c → P (s.attach p c)

theorem length_attach (s : CopyState) (p c : NodeId) :
    (s.attach p c).arena.nodes.length = s.arena.nodes.length := by
  rw [CopyState.attach, length_setParent, length_alter]

theorem length_copyChildren_le {copyOne : NodeId → CopyState → NodeId × CopyState}
    (hone : ∀ c s, s.arena.nodes.length ≤ (copyOne c s).2.arena.nodes.length) (p : NodeId)
    (cs : List NodeId) (s : CopyState) :
    s.arena.nodes.length ≤ (copyChildren copyOne p cs s).arena.nodes.length := by
  induction cs generalizing s with
  | nil => exact Nat.le_refl _
  | cons c cs ih =>
    rw [copyChildren]
    exact ((hone c s).trans (length_attach _ p _).ge).trans (ih _)

/-- Copying takes no node away. -/
theorem length_copyWithin_le (fuel : Nat) (i : NodeId) (s : CopyState) :
    s.arena.nodes.length ≤ (copyWithin fuel i s).2.arena.nodes.length := by
  induction fuel generalizing i s with
  | zero => exact Nat.le_refl _
  | succ fuel ih =>
    rcases copyWithin_cases (fuel + 1) i s with hsame | ⟨_, n, -, hfree, hn⟩
    · rw [hsame]
    · rw [copyWithin_new hfree hn]
      refine Nat.le_trans ?_ (length_copyChildren_le ih _ _ _)
      exact (Nat.le_succ _).trans (length_allocate _).ge

theorem length_copyNode_le (a : Arena) (i : NodeId) : a.nodes.length ≤ (a.copyNode i).2.nodes.length :=
  length_copyWithin_le (a.nodes.length + 1) i ⟨a, []⟩

section Keeping

variable {bound : Nat} {P : CopyState → Prop} {O : NodeId → Prop}

theorem CopyKeeps.copyChildren (h : CopyKeeps bound P O)
    {copyOne : NodeId → CopyState → NodeId × CopyState}
    (hle : ∀ c s, s.arena.nodes.length ≤ (copyOne c s).2.arena.nodes.length)
    (hone : ∀ c s, (copyOne c s).2.arena.nodes.length ≤ bound → P s → O c →
      P (copyOne c s).2 ∧ O (copyOne c s).1) (hp : O p) : ∀ (cs : List NodeId) (s : CopyState),
      (Arena.copyChildren copyOne p cs s).arena.nodes.length ≤ bound → P s → (∀ c ∈ cs, O c) →
      P (Arena.copyChildren copyOne p cs s)
  | [], _, _, hs, _ => hs
  | c :: cs, s, hbound, hs, hcs => by
    rw [Arena.copyChildren] at hbound ⊢
    have hrest := length_copyChildren_le hle p cs ((copyOne c s).2.attach p (copyOne c s).1)
    rw [length_attach] at hrest
    obtain ⟨hfirst, hcopy⟩ := hone c s (hrest.trans hbound) hs (hcs c List.mem_cons_self)
    exact h.copyChildren hle hone hp cs _ hbound (h.attach hfirst hp hcopy)
      fun d hd => hcs d (List.mem_cons_of_mem c hd)

theorem mem_copiedChildren (hc : c ∈ copiedChildren n) : c ∈ n.children := by
  rw [copiedChildren] at hc
  split at hc
  · exact hc
  · cases hc

/-- **What shells and attachments keep is kept by copying.** -/
theorem CopyKeeps.copyWithin (h : CopyKeeps bound P O) (fuel : Nat) (i : NodeId) (s : CopyState)
    (hbound : (Arena.copyWithin fuel i s).2.arena.nodes.length ≤ bound) (hs : P s) (hi : O i) :
    P (Arena.copyWithin fuel i s).2 ∧ O (Arena.copyWithin fuel i s).1 := by
  induction fuel generalizing i s with
  | zero => exact ⟨hs, hi⟩
  | succ fuel ih =>
    cases hfree : s.copyOf? i with
    | some j =>
      rw [Arena.copyWithin, hfree]
      exact ⟨hs, h.found hs hfree⟩
    | none =>
      cases hn : s.arena.node? i with
      | none =>
        rw [Arena.copyWithin, hfree]
        simp only [hn]
        exact ⟨hs, hi⟩
      | some n =>
        rw [copyWithin_new hfree hn] at hbound ⊢
        have hle := length_copyChildren_le (length_copyWithin_le fuel) s.arena.nodes.length
          (copiedChildren n) (s.addShell i n).2
        have hcount : (s.addShell i n).2.arena.nodes.length = s.arena.nodes.length + 1 :=
          length_allocate _
        simp only at hbound
        obtain ⟨hshell, hnew⟩ := h.shell hs hi hfree hn (by omega)
        refine ⟨h.copyChildren (length_copyWithin_le fuel) (fun c s hle hs hc => ih c s hle hs hc) hnew _ _
          hbound hshell fun c hc => h.child hs hi hn (mem_copiedChildren hc), hnew⟩

end Keeping

/-- Copies of nodes outside are made of nodes outside, if new nodes are. -/
theorem copyKeeps_guards {bound : Nat}
    (hnew : ∀ k, a.nodes.length ≤ k → k < bound → ¬X k) :
    CopyKeeps bound (fun s => Guards X a s.arena ∧ a.nodes.length ≤ s.arena.nodes.length ∧
      ∀ pair ∈ s.copies, ¬X pair.2) (¬X ·) where
  found := by
    rintro s i j ⟨-, -, hcopies⟩ hj
    obtain ⟨pair, hpair, rfl⟩ := Option.map_eq_some_iff.mp hj
    exact hcopies pair (List.mem_of_find?_eq_some hpair)
  shell := by
    rintro s i n ⟨hguards, hle, hcopies⟩ - - - hlt
    have hfresh := hnew _ hle hlt
    refine ⟨⟨hguards.trans (hguards.shut.guards_allocate hfresh ⟨nofun, nofun⟩),
      hle.trans ((Nat.le_succ _).trans (length_allocate _).ge), fun pair hpair => ?_⟩, hfresh⟩
    rcases List.mem_append.mp hpair with hpair | hpair
    · exact hcopies pair hpair
    · rw [List.mem_singleton.mp hpair]
      exact hfresh
  child := fun ⟨hguards, _, _⟩ hi hn hc => (hguards.shut _ _ hi hn).children _ hc
  attach := by
    rintro s p c ⟨hguards, hle, hcopies⟩ hp hc
    have hjoined := hguards.shut.guards_alter (f := fun n => { n with children := n.children ++ [c] }) hp
      fun n hn => by
        obtain ⟨hchildren, hparent⟩ := hguards.shut p n hp hn
        refine ⟨fun d hd => ?_, hparent⟩
        rcases List.mem_append.mp hd with hd | hd
        · exact hchildren d hd
        · exact List.mem_singleton.mp hd ▸ hc
    have hparent := hjoined.shut.guards_setParent (q := some p) hc fun r hr => Option.some.inj hr ▸ hp
    exact ⟨(hguards.trans hjoined).trans hparent, hle.trans (length_attach s p c).ge, hcopies⟩

theorem Shut.guards_copyNode (h : Shut X a) (hi : ¬X i)
    (hnew : ∀ k, a.nodes.length ≤ k → k < (a.copyNode i).2.nodes.length → ¬X k) :
    Guards X a (a.copyNode i).2 ∧ ¬X (a.copyNode i).1 := by
  obtain ⟨⟨hguards, -, -⟩, hcopy⟩ := (copyKeeps_guards hnew).copyWithin (a.nodes.length + 1) i ⟨a, []⟩
    (Nat.le_refl _) ⟨.refl h, Nat.le_refl _, nofun⟩ hi
  exact ⟨hguards, hcopy⟩

/-! ## 5. Moves -/

/-- Nodes and trees are never taken away, trees that are not touched keep their roots, and other roots
are outside or new. -/
structure Lasts (X : NodeId → Prop) (T : TreeId → Prop) (a b : Arena) : Prop where
  nodes : a.nodes.length ≤ b.nodes.length
  trees : a.roots.length ≤ b.roots.length
  roots : ∀ t, T t → t < a.roots.length → b.root? t = a.root? t
  rooted : ∀ t i, b.root? t = some i →
    a.root? t = some i ∨ ¬X i ∨ a.nodes.length ≤ i ∧ i < b.nodes.length

theorem Lasts.trans (h : Lasts X T a b) (h' : Lasts X T b d) : Lasts X T a d where
  nodes := h.nodes.trans h'.nodes
  trees := h.trees.trans h'.trees
  roots t ht hlt := (h'.roots t ht (hlt.trans_le h.trees)).trans (h.roots t ht hlt)
  rooted t i hi := by
    rcases h'.rooted t i hi with hb | hout | ⟨hle, hlt⟩
    · rcases h.rooted t i hb with ha | hout | ⟨hle, hlt⟩
      · exact .inl ha
      · exact .inr (.inl hout)
      · exact .inr (.inr ⟨hle, hlt.trans_le h'.nodes⟩)
    · exact .inr (.inl hout)
    · exact .inr (.inr ⟨h.nodes.trans hle, hlt⟩)

theorem Lasts.of_same_roots (hnodes : a.nodes.length ≤ b.nodes.length) (hroots : b.roots = a.roots) :
    Lasts X T a b where
  nodes := hnodes
  trees := hroots ▸ Nat.le_refl _
  roots t _ _ := by rw [root?, root?, hroots]
  rooted t i hi := .inl (by rwa [root?, ← hroots])

/-- A new tree. -/
theorem lasts_allocateTree {r : Option NodeId} (hle : a.nodes.length ≤ b.nodes.length)
    (hroots : b.roots = a.roots)
    (hr : ∀ i, r = some i → ¬X i ∨ a.nodes.length ≤ i ∧ i < b.nodes.length) :
    Lasts X T a (b.allocateTree r).2 where
  nodes := hle
  trees := by simp [allocateTree, hroots]
  roots t _ ht := by simp only [root?, allocateTree, hroots, List.getElem?_append_left ht]
  rooted t i hi := by
    simp only [root?, allocateTree, hroots, Option.join_eq_some_iff] at hi ⊢
    rcases List.mem_append.mp (List.mem_of_getElem? hi) with hin | hin
    all_goals
      by_cases ht : t < a.roots.length
      · rw [List.getElem?_append_left ht] at hi
        exact .inl hi
      · rw [List.getElem?_append_right (Nat.le_of_not_lt ht)] at hi
        exact .inr (hr i (List.mem_singleton.mp (List.mem_of_getElem? hi)).symm)

/-- The copy of a node that is there is new. -/
theorem fst_copyNode (i : NodeId) : (a.copyNode i).1 = i ∨
    (a.copyNode i).1 = a.nodes.length ∧ a.nodes.length < (a.copyNode i).2.nodes.length := by
  cases hn : a.node? i with
  | none =>
    left
    rw [copyNode, copyWithin]
    simp only [CopyState.copyOf?, List.find?_nil, Option.map_none, hn]
  | some n =>
    right
    rw [copyNode, copyWithin_new rfl hn]
    refine ⟨rfl, ?_⟩
    refine Nat.lt_of_lt_of_le ?_ (length_copyChildren_le (length_copyWithin_le _) _ _ _)
    rw [CopyState.addShell, length_allocate]
    exact Nat.lt_succ_self _

theorem lasts_copyNode : Lasts X T a (a.copyNode i).2 :=
  .of_same_roots (length_copyNode_le a i)
    (roots_copyWithin (a.nodes.length + 1) i ⟨a, []⟩)

theorem copyTree_of_root (h : a.root? t = some i) :
    a.copyTree t = (a.copyNode i).2.allocateTree (some (a.copyNode i).1) := by
  rw [copyTree, h]

theorem lasts_copyTree (hroot : ∀ i, a.root? t = some i → ¬X i) : Lasts X T a (a.copyTree t).2 := by
  cases hi : a.root? t with
  | none =>
    rw [copyTree, hi]
    exact lasts_allocateTree (Nat.le_refl _) rfl fun _ hj => by cases hj
  | some i =>
    have hle := length_copyNode_le a i
    rw [copyTree_of_root hi]
    refine lasts_allocateTree hle (roots_copyWithin (a.nodes.length + 1) i ⟨a, []⟩) fun j hj => ?_
    rw [← Option.some.inj hj]
    rcases fst_copyNode (a := a) i with hsame | ⟨hnew, hlt⟩
    · rw [hsame]
      exact .inl (hroot i hi)
    · rw [hnew]
      exact .inr ⟨Nat.le_refl _, hlt⟩

theorem lasts_setRoots (ht : ¬T t) (hi : ¬X i) : Lasts X T a { a with roots := a.roots.set t (some i) } where
  nodes := Nat.le_refl _
  trees := List.length_set.ge
  roots u hu _ := by
    have hne : t ≠ u := by
      rintro rfl
      exact ht hu
    simp only [root?, List.getElem?_set_ne hne]
  rooted u j hj := by
    by_cases htu : t = u
    · subst htu
      right; left
      simp only [root?, List.getElem?_set_self'] at hj
      cases hroot : a.roots[t]? with
      | none => simp [hroot] at hj
      | some r =>
        rw [hroot] at hj
        exact Option.some.inj hj ▸ hi
    · left
      simpa only [root?, List.getElem?_set_ne htu] using hj

theorem Moved.lasts (h : Moved X T a b) : Lasts X T a b := by
  induction h with
  | refl => exact .of_same_roots (Nat.le_refl _) rfl
  | trans _ _ ih ih' => exact ih.trans ih'
  | made _ _ => exact .of_same_roots (by rw [length_allocate]; exact Nat.le_succ _) rfl
  | @loaded a t _ => exact .of_same_roots (length_plant_le none a t) (roots_plant none a t)
  | copied _ => exact lasts_copyNode
  | inserted _ _ h =>
    obtain ⟨n, c, -, -, -, rfl⟩ := insertChild_ok h
    exact .of_same_roots (by rw [length_forgetUpward, length_setParent, length_setChildren])
      (roots_forgetAll _ _)
  | removed _ h =>
    obtain ⟨n, -, -, -, rfl⟩ := removeChild_ok h
    exact .of_same_roots (by rw [length_forgetUpward, length_setParent, length_setChildren])
      (roots_forgetAll _ _)
  | replaced _ _ h =>
    obtain ⟨n, c, -, -, -, rfl⟩ := replaceChild_ok h
    exact .of_same_roots
      (by rw [length_forgetUpward, length_setParent, length_setChildren, length_setParent])
      (roots_forgetAll _ _)
  | changed _ h =>
    obtain ⟨n, -, -, rfl⟩ := changeSymbol_ok h
    exact .of_same_roots (by rw [length_alter]) rfl
  | valued _ => exact .of_same_roots (length_alter _ _ _).ge rfl
  | freed _ => exact .of_same_roots (length_setParent _).ge rfl
  | rooted ht hi => exact lasts_setRoots ht hi
  | treed hr => exact lasts_allocateTree (Nat.le_refl _) rfl fun i hi => .inl (hr i hi)
  | treeCopied hroot => exact lasts_copyTree hroot
  | remembered h => exact .of_same_roots h.length.ge h.roots

/-- **Moves leave nodes alone that no link leads to**, if new nodes are not among them. -/
theorem Moved.guards (h : Moved X T a b) (hshut : Shut X a)
    (hnew : ∀ k, a.nodes.length ≤ k → k < b.nodes.length → ¬X k) : Guards X a b := by
  induction h with
  | refl => exact .refl hshut
  | trans h h' ih ih' =>
    have hfirst := ih hshut fun k hk hlt => hnew k hk (hlt.trans_le h'.lasts.nodes)
    exact hfirst.trans (ih' hfirst.shut fun k hk hlt => hnew k (h.lasts.nodes.trans hk) hlt)
  | @made a n hchildren hparent =>
    refine hshut.guards_allocate (hnew _ (Nat.le_refl _) ?_) ⟨?_, ?_⟩
    · rw [length_allocate]
      exact Nat.lt_succ_self _
    · rw [hchildren]
      nofun
    · rw [hparent]
      nofun
  | loaded _ => exact (hshut.guards_plant nofun _ hnew).1
  | copied hi => exact (hshut.guards_copyNode hi hnew).1
  | inserted hp hc h => exact hshut.guards_insertChild hp hc h
  | removed hp h => exact hshut.guards_removeChild hp h
  | replaced hp hc h => exact hshut.guards_replaceChild hp hc h
  | changed hi h =>
    obtain ⟨n, -, -, rfl⟩ := changeSymbol_ok h
    exact hshut.guards_alter_same hi fun _ => ⟨rfl, rfl⟩
  | valued hi => exact hshut.guards_alter_same hi fun n => by split <;> exact ⟨rfl, rfl⟩
  | freed hi => exact hshut.guards_setParent hi nofun
  | rooted _ _ => exact (Guards.refl hshut).congr rfl
  | treed _ => exact (Guards.refl hshut).congr rfl
  | @treeCopied a t hroot =>
    rw [copyTree] at hnew ⊢
    split at hnew
    · exact (Guards.refl hshut).congr rfl
    · next i hi => exact (hshut.guards_copyNode (hroot i hi) hnew).1.congr rfl
  | remembered h => exact ⟨h.shut hshut, h.spared⟩

/-! ## 6. Sessions -/

/-- Links and roots lead to nodes that are there. -/
structure Closed (a : Arena) : Prop where
  shut : Shut (a.nodes.length ≤ ·) a
  roots : ∀ t i, a.root? t = some i → i < a.nodes.length

/-- An arena begins with nothing in it. -/
theorem Closed.of_empty : Closed {} where
  shut i _ hi _ := absurd (Nat.zero_le i) hi
  roots t i hi := by cases hi

theorem Shut.mono {Y : NodeId → Prop} (h : Shut X a) (hle : ∀ k, Y k → X k)
    (hthere : ∀ i, i < a.nodes.length → ¬X i) : Shut Y a := by
  intro i n _ hn
  obtain ⟨hchildren, hparent⟩ := h i n (hthere i (node?_lt hn)) hn
  exact ⟨fun c hc hY => hchildren c hc (hle c hY), fun p hp hY => hparent p hp (hle p hY)⟩

theorem Closed.shut_of_le {m : Nat} (h : a.Closed) (hm : a.nodes.length ≤ m) : Shut (m ≤ ·) a :=
  h.shut.mono (fun _ hk => hm.trans hk) fun _ hi => Nat.not_le.mpr hi

/-- **Moves that touch nodes that are there keep an arena closed.** -/
theorem Moved.closed (h : Moved (b.nodes.length ≤ ·) T a b) (ha : a.Closed) : b.Closed := by
  have hlasts := h.lasts
  refine ⟨(h.guards (ha.shut_of_le hlasts.nodes) fun _ _ => Nat.not_le.mpr).shut, fun t i hi => ?_⟩
  rcases hlasts.rooted t i hi with hroot | hout | ⟨-, hlt⟩
  · exact (ha.roots t i hroot).trans_le hlasts.nodes
  · exact Nat.lt_of_not_le hout
  · exact hlt

end Arena

namespace Session

open Arena

variable {X : NodeId → Prop} {T : TreeId → Prop} {s : Session}

/-- Steps name no node of a set, no tree with a root in it, and no tree of a set, each at its turn. -/
inductive Avoids (X : NodeId → Prop) (T : TreeId → Prop) : Session → List Step → Prop
  | nil {s : Session} : Avoids X T s []
  | cons {s : Session} {step : Step} {steps : List Step} : (∀ i, s.Touches step i → ¬X i) →
    (∀ t, s.TouchesTree step t → ¬T t) → Avoids X T (s.advance step).2 steps →
    Avoids X T s (step :: steps)

/-- **Nodes that no link leads to stay as they are** while steps name others only, and so do the roots of
trees that are not named. -/
theorem guards_through {steps : List Step} (h : Avoids X T s steps) (hshut : Shut X s.arena)
    (hwithin : ∀ k, X k → k < s.arena.nodes.length) :
    Guards X s.arena (s.through steps).arena ∧ Lasts X T s.arena (s.through steps).arena := by
  induction h with
  | nil => exact ⟨.refl hshut, .of_same_roots (Nat.le_refl _) rfl⟩
  | cons hnodes htrees _ ih =>
    have hmoved := moved_advance hshut hnodes htrees
    have hguards := hmoved.guards hshut fun k hk _ hX => Nat.not_lt_of_le hk (hwithin k hX)
    obtain ⟨hrest, hlasts⟩ := ih hguards.shut fun k hk => (hwithin k hk).trans_le hmoved.lasts.nodes
    exact ⟨hguards.trans hrest, hmoved.lasts.trans hlasts⟩

end Session
end FormulaEvolution
