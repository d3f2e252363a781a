/-
# Bounds on children

No node ever has more children than its symbol takes, and a node that once has as many as its symbol
takes keeps to the bounds of whatever symbol it has, whatever a session does: nodes may be attached that
have a parent already, that are the node itself, or that are shared (`Session.bounds_after`).

Each move is looked at by what it does to the symbols of nodes and to the numbers of their children
(`Arena.arity?`).  Moves of parents and of memories do nothing to these.  A copy is made without children
and gets as many as its origin has, one by one, while nothing else gets any (`arity?_copyWithin`).
-/
import FormulaEvolution.Proofs.Arena.Edits

namespace FormulaEvolution

namespace Arena

variable {X : NodeId → Prop} {T : TreeId → Prop} {a b d : Arena} {p c i j : NodeId}

/-! ## 1. Symbols and numbers of children -/

/-- The symbol of a node and the number of its children. -/
def arity? (a : Arena) (i : NodeId) : Option (Symbol × Nat) :=
  (a.node? i).map fun n => (n.symbol, n.children.length)

theorem arity?_of_node? {n : Node} (h : a.node? i = some n) :
    a.arity? i = some (n.symbol, n.children.length) := by
  rw [arity?, h, Option.map_some]

theorem arity?_alter (f : Node → Node) : (a.alter i f).arity? j =
    if i = j then (a.node? j).map fun n => ((f n).symbol, (f n).children.length) else a.arity? j := by
  rw [arity?, node?_alter]
  split
  · rw [Option.map_map]
    rfl
  · rfl

/-- Altering neither the symbol nor the children of a node leaves both. -/
theorem arity?_alter_same {f : Node → Node} (hf : ∀ n, (f n).symbol = n.symbol ∧
    (f n).children = n.children) : (a.alter i f).arity? j = a.arity? j := by
  rw [arity?_alter]
  split
  · simp only [hf, arity?]
  · rfl

@[simp] theorem arity?_setParent (q : Option NodeId) : (a.setParent c q).arity? j = a.arity? j :=
  arity?_alter_same fun _ => ⟨rfl, rfl⟩

theorem arity?_setChildren (cs : List NodeId) : (a.setChildren p cs).arity? j =
    if p = j then (a.arity? j).map fun x => (x.1, cs.length) else a.arity? j := by
  rw [setChildren, arity?_alter]
  split
  · rw [arity?, Option.map_map]
    rfl
  · rfl

@[simp] theorem arity?_forgetAll (is : List NodeId) : (a.forgetAll is).arity? j = a.arity? j := by
  rw [arity?, node?_forgetAll]
  split
  · rw [Option.map_map]
    rfl
  · rfl

@[simp] theorem arity?_forgetUpward : (a.forgetUpward p).arity? j = a.arity? j := arity?_forgetAll _

theorem arity?_allocate (n : Node) : (a.allocate n).2.arity? j =
    if j = a.nodes.length then some (n.symbol, n.children.length) else a.arity? j := by
  rw [arity?, node?_allocate]
  split <;> rfl

theorem arity?_of_le (h : a.nodes.length ≤ j) : a.arity? j = none := by
  rw [arity?, node?_of_le h, Option.map_none]

theorem arity?_lt {x : Symbol × Nat} (h : a.arity? j = some x) : j < a.nodes.length := by
  by_contra hge
  rw [arity?_of_le (Nat.le_of_not_lt hge)] at h
  cases h

/-! ## 2. Bounds -/

/-- No node has more children than its symbol takes. -/
def Bounded (a : Arena) : Prop := ∀ i s k, a.arity? i = some (s, k) → k ≤ s.most

/-- A node has as many children as its symbol takes. -/
def Within (a : Arena) (i : NodeId) : Prop := ∃ s k, a.arity? i = some (s, k) ∧ s.accepts k = true

/-- What moves keep: the upper bound everywhere, and both bounds where both are kept to. -/
def KeepsBounds (a b : Arena) : Prop := a.Bounded → b.Bounded ∧ ∀ i, a.Within i → b.Within i

theorem KeepsBounds.trans (h : KeepsBounds a b) (h' : KeepsBounds b d) : KeepsBounds a d := fun ha => by
  obtain ⟨hb, hfirst⟩ := h ha
  obtain ⟨hd, hrest⟩ := h' hb
  exact ⟨hd, fun i hi => hrest i (hfirst i hi)⟩

/-- A move that changes the symbol of one node or the number of its children. -/
theorem KeepsBounds.of_one {s s' : Symbol} {k k' : Nat} (hp : a.arity? p = some (s, k))
    (hp' : b.arity? p = some (s', k')) (hsame : ∀ i, i ≠ p → b.arity? i = a.arity? i)
    (hmost : k ≤ s.most → k' ≤ s'.most) (haccepts : s.accepts k = true → s'.accepts k' = true) :
    KeepsBounds a b := by
  refine fun ha => ⟨fun i t m hi => ?_, fun i hi => ?_⟩
  · by_cases hip : i = p
    · subst hip
      obtain ⟨rfl, rfl⟩ := Prod.mk.inj (Option.some.inj (hp'.symm.trans hi))
      exact hmost (ha i s k hp)
    · exact ha i t m (hsame i hip ▸ hi)
  · obtain ⟨t, m, hm, hfits⟩ := hi
    by_cases hip : i = p
    · subst hip
      obtain ⟨rfl, rfl⟩ := Prod.mk.inj (Option.some.inj (hp.symm.trans hm))
      exact ⟨s', k', hp', haccepts hfits⟩
    · exact ⟨t, m, (hsame i hip).trans hm, hfits⟩

/-- A move that leaves the nodes that there are, and adds some that keep to the upper bound. -/
theorem KeepsBounds.of_new (hold : ∀ i, i < a.nodes.length → b.arity? i = a.arity? i)
    (hnew : ∀ i s k, a.nodes.length ≤ i → b.arity? i = some (s, k) → k ≤ s.most) :
    KeepsBounds a b := by
  refine fun ha => ⟨fun i s k hi => ?_, fun i hi => ?_⟩
  · by_cases hlt : i < a.nodes.length
    · exact ha i s k (hold i hlt ▸ hi)
    · exact hnew i s k (Nat.le_of_not_lt hlt) hi
  · obtain ⟨s, k, hk, haccepts⟩ := hi
    exact ⟨s, k, (hold i (arity?_lt hk)).trans hk, haccepts⟩

/-- A move that changes neither symbols nor numbers of children. -/
theorem KeepsBounds.of_same (h : ∀ i, b.arity? i = a.arity? i) : KeepsBounds a b :=
  .of_new (fun i _ => h i) fun i s k hi hk => by
    rw [h, arity?_of_le hi] at hk
    cases hk

/-! ## 3. Children and symbols -/

/-- The children of a node are exchanged for others, and the nodes around it take note. -/
theorem KeepsBounds.of_setChildren {n : Node} {cs : List NodeId} (hn : a.node? p = some n)
    (hb : ∀ i, b.arity? i = (a.setChildren p cs).arity? i)
    (hmost : n.children.length ≤ n.symbol.most → cs.length ≤ n.symbol.most)
    (hleast : n.symbol.least ≤ n.children.length → n.symbol.least ≤ cs.length) : KeepsBounds a b := by
  have hp := arity?_of_node? hn
  have hp' : b.arity? p = some (n.symbol, cs.length) := by
    rw [hb, arity?_setChildren, if_pos rfl, hp, Option.map_some]
  refine .of_one hp hp' (fun i hi => ?_) hmost fun haccepts => ?_
  · rw [hb, arity?_setChildren, if_neg (Ne.symm hi)]
  · rw [Symbol.accepts_iff] at haccepts ⊢
    exact ⟨hleast haccepts.1, hmost haccepts.2⟩

theorem keepsBounds_insertChild {index : Int} (h : a.insertChild p index (some c) = .ok b) :
    KeepsBounds a b := by
  obtain ⟨n, c', hn, -, hroom, rfl⟩ := insertChild_ok h
  have hlength : (n.children.insertIdx (insertPosition n.children.length index) c').length =
      n.children.length + 1 := by
    rw [List.length_insertIdx, if_pos (insertPosition_le _ _)]
  exact .of_setChildren hn (fun i => by rw [arity?_forgetUpward, arity?_setParent])
    (fun _ => by omega) fun _ => by omega

theorem keepsBounds_removeChild {index : Int} (h : a.removeChild p index = .ok (c, b)) :
    KeepsBounds a b := by
  obtain ⟨n, hn, hat, hroom, rfl⟩ := removeChild_ok h
  have hlt : index.toNat < n.children.length := (List.getElem?_eq_some_iff.mp hat).1
  have hlength : (n.children.eraseIdx index.toNat).length = n.children.length - 1 :=
    List.length_eraseIdx_of_lt hlt
  exact .of_setChildren hn (fun i => by rw [arity?_forgetUpward, arity?_setParent])
    (fun _ => by omega) fun _ => by omega

theorem keepsBounds_replaceChild {old : NodeId} {index : Int}
    (h : a.replaceChild p index (some c) = .ok (old, b)) : KeepsBounds a b := by
  obtain ⟨n, c', hn, -, -, rfl⟩ := replaceChild_ok h
  have hlength : (n.children.set index.toNat c').length = n.children.length := List.length_set
  refine .of_setChildren hn (fun i => ?_) (fun h => hlength.le.trans h) fun h => h.trans hlength.ge
  rw [arity?_forgetUpward, arity?_setParent, arity?_setChildren, arity?_setChildren, arity?_setParent]

theorem keepsBounds_changeSymbol {s : Symbol} (h : a.changeSymbol i s = .ok b) : KeepsBounds a b := by
  obtain ⟨n, hn, haccepts, rfl⟩ := changeSymbol_ok h
  have hi' : (a.alter i fun n => { n with symbol := s }).arity? i = some (s, n.children.length) := by
    rw [arity?_alter, if_pos rfl, hn, Option.map_some]
  refine .of_one (arity?_of_node? hn) hi' (fun j hj => ?_) (fun _ => (Symbol.accepts_iff.mp haccepts).2)
    fun _ => haccepts
  rw [arity?_alter, if_neg (Ne.symm hj)]

/-! ## 4. Trees planted -/

/-- A new leaf keeps to the bounds if its symbol takes no children. -/
theorem within_allocate {n : Node} (hn : n.symbol.accepts n.children.length = true)
    (hi : a.nodes.length ≤ i) (hlt : i < (a.allocate n).2.nodes.length) : (a.allocate n).2.Within i := by
  rw [length_allocate] at hlt
  have hnew : i = a.nodes.length := Nat.le_antisymm (Nat.le_of_lt_succ hlt) hi
  rw [Within, arity?_allocate, if_pos hnew]
  exact ⟨_, _, rfl, hn⟩

theorem within_of_node? (h : b.node? i = a.node? i) (hi : a.Within i) : b.Within i := by
  rwa [Within, arity?, h]

mutual

/-- All nodes of a planted tree that fits keep to the bounds. -/
theorem within_plant {i : NodeId} (q : Option NodeId) : ∀ (a : Arena) (t : Tree), t.Fits →
    a.nodes.length ≤ i → i < (a.plant q t).2.nodes.length → (a.plant q t).2.Within i
  | a, .constant s v, ht, hi, hlt =>
    within_allocate (ht (.constant s v) (by simp [Tree.preorder])) hi hlt
  | a, .variable s, ht, hi, hlt => within_allocate (ht (.variable s) (by simp [Tree.preorder])) hi hlt
  | a, .node s cs, ht, hi, hlt => by
    have hcs : ∀ c ∈ cs, c.Fits := fun c hc u hu =>
      ht u (List.mem_cons_of_mem _ (Tree.mem_preorderAll.mpr ⟨c, hc, hu⟩))
    have hroot : s.accepts cs.length = true := ht (.node s cs) (by simp [Tree.preorder])
    rw [plant] at hlt ⊢
    obtain ⟨shell, hshell⟩ : ∃ shell, shell =
      (a.allocate { form := .plain, symbol := s, parent := q }).2 := ⟨_, rfl⟩
    have hcount : shell.nodes.length = a.nodes.length + 1 := by rw [hshell, length_allocate]
    simp only [fst_allocate, ← hshell, length_setChildren] at hlt ⊢
    have hbelow := within_plantAll (i := i) a.nodes.length shell cs hcs
    rw [Within, arity?_setChildren]
    by_cases hroot' : a.nodes.length = i
    · subst hroot'
      have hnode : shell.arity? a.nodes.length = some (s, 0) := by
        rw [hshell, arity?_allocate, if_pos rfl]
        rfl
      refine ⟨s, (shell.plantAll a.nodes.length cs).1.length, ?_, ?_⟩
      · have hlt' : a.nodes.length < shell.nodes.length := by omega
        rw [if_pos rfl, arity?, node?_plantAll hlt', ← arity?, hnode, Option.map_some]
      · rwa [(stands_plantAll shell a.nodes.length cs).length_eq]
    · rw [if_neg hroot']
      exact hbelow (by omega) hlt

theorem within_plantAll {i : NodeId} (p : NodeId) : ∀ (a : Arena) (cs : List Tree), (∀ c ∈ cs, c.Fits) →
    a.nodes.length ≤ i → i < (a.plantAll p cs).2.nodes.length → (a.plantAll p cs).2.Within i
  | a, [], _, hi, hlt => absurd hlt (Nat.not_lt.mpr hi)
  | a, c :: cs, hcs, hi, hlt => by
    rw [plantAll] at hlt ⊢
    by_cases hfirst : i < (a.plant (some p) c).2.nodes.length
    · exact within_of_node? (node?_plantAll hfirst)
        (within_plant (some p) a c (hcs c List.mem_cons_self) hi hfirst)
    · exact within_plantAll p _ cs (fun d hd => hcs d (List.mem_cons_of_mem c hd))
        (Nat.le_of_not_lt hfirst) hlt

end

theorem keepsBounds_plant {t : Tree} (ht : t.Fits) : KeepsBounds a (a.plant none t).2 := by
  refine .of_new (fun i hi => by rw [arity?, arity?, node?_plant hi]) fun i s k hi hk => ?_
  obtain ⟨s', k', hk', haccepts⟩ := within_plant none a t ht hi (arity?_lt hk)
  obtain ⟨rfl, rfl⟩ := Prod.mk.inj (Option.some.inj (hk'.symm.trans hk))
  exact (Symbol.accepts_iff.mp haccepts).2

/-! ## 5. Copies -/

/-- Nodes that there are, but for some, keep their symbols and their numbers of children, and all keep
to the upper bound. -/
structure Grown (a b : Arena) (but : NodeId → Prop) : Prop where
  count : a.nodes.length ≤ b.nodes.length
  kept : ∀ i, ¬but i → i < a.nodes.length → b.arity? i = a.arity? i
  bounded : b.Bounded

theorem Grown.refl {but : NodeId → Prop} (h : a.Bounded) : Grown a a but :=
  ⟨Nat.le_refl _, fun _ _ _ => rfl, h⟩

theorem Grown.trans {but : NodeId → Prop} (h : Grown a b but) (h' : Grown b d but) : Grown a d but :=
  ⟨h.count.trans h'.count,
    fun i hi hlt => (h'.kept i hi (hlt.trans_le h.count)).trans (h.kept i hi hlt), h'.bounded⟩

/-- A node that joins another one is one more child of it. -/
theorem arity?_attach (s : CopyState) (p c : NodeId) : (s.attach p c).arena.arity? j =
    if p = j then (s.arena.arity? j).map fun x => (x.1, x.2 + 1) else s.arena.arity? j := by
  rw [CopyState.attach, arity?_setParent, arity?_alter]
  split
  · simp [arity?, Function.comp_def]
  · rfl

/-- **Copies become children of a node that has room for them**, and no other node that there was gets
any. -/
theorem grown_copyChildren {copyOne : NodeId → CopyState → NodeId × CopyState}
    (hone : ∀ i s, s.arena.Bounded → Grown s.arena (copyOne i s).2.arena fun _ => False) {sym : Symbol} :
    ∀ (cs : List NodeId) (s : CopyState) {k : Nat}, s.arena.Bounded →
      s.arena.arity? p = some (sym, k) → k + cs.length ≤ sym.most →
      Grown s.arena (copyChildren copyOne p cs s).arena (· = p)
  | [], s, k, hs, _, _ => .refl hs
  | c :: cs, s, k, hs, hp, hroom => by
    rw [List.length_cons] at hroom
    obtain ⟨hcount, hkept, hbounded⟩ := hone c s hs
    rw [copyChildren]
    generalize copyOne c s = copied at hcount hkept hbounded
    obtain ⟨j, s'⟩ := copied
    have hp' : s'.arena.arity? p = some (sym, k) := (hkept p not_false (arity?_lt hp)).trans hp
    have hjoined : (s'.attach p j).arena.arity? p = some (sym, k + 1) := by
      rw [arity?_attach, if_pos rfl, hp', Option.map_some]
    have hother : ∀ i, i ≠ p → (s'.attach p j).arena.arity? i = s'.arena.arity? i := fun i hi => by
      rw [arity?_attach, if_neg (Ne.symm hi)]
    have hjoin : KeepsBounds s'.arena (s'.attach p j).arena :=
      .of_one hp' hjoined hother (fun _ => by omega) fun h => by
        rw [Symbol.accepts_iff] at h ⊢
        omega
    have hattach : Grown s.arena (s'.attach p j).arena (· = p) := by
      refine ⟨?_, fun i hi hlt => (hother i hi).trans (hkept i not_false hlt), (hjoin hbounded).1⟩
      rwa [CopyState.attach, length_setParent, length_alter]
    exact hattach.trans (grown_copyChildren hone cs _ hattach.bounded hjoined (by omega))

theorem length_copiedChildren_le (n : Node) : (copiedChildren n).length ≤ n.children.length := by
  rw [copiedChildren]
  split
  · exact Nat.le_refl _
  · exact Nat.zero_le _

/-- **Copying gives no node more children than its symbol takes**, since a copy has no more than its
origin, and gives none to nodes that there were. -/
theorem grown_copyWithin (bound : Nat) (i : NodeId) (s : CopyState) (hs : s.arena.Bounded) :
    Grown s.arena (copyWithin bound i s).2.arena fun _ => False := by
  induction bound generalizing i s with
  | zero => exact .refl hs
  | succ bound ih =>
    rcases copyWithin_cases (bound + 1) i s with hsame | ⟨_, n, -, hfree, hn⟩
    · rw [hsame]
      exact .refl hs
    · rw [copyWithin_new hfree hn]
      have hshell : ∀ k, (s.addShell i n).2.arena.arity? k =
          if k = s.arena.nodes.length then some (n.symbol, 0) else s.arena.arity? k :=
        fun k => arity?_allocate _
      have hcount : (s.addShell i n).2.arena.nodes.length = s.arena.nodes.length + 1 := length_allocate _
      have hbounded : (s.addShell i n).2.arena.Bounded := by
        intro k sym m hk
        rw [hshell] at hk
        split at hk
        · cases hk
          exact Nat.zero_le _
        · exact hs k sym m hk
      have hroom : 0 + (copiedChildren n).length ≤ n.symbol.most := by
        have horigin := hs i n.symbol _ (arity?_of_node? hn)
        have hfewer := length_copiedChildren_le n
        omega
      obtain ⟨hle, hkept, hall⟩ := grown_copyChildren (fun k s' => ih k s') (copiedChildren n) _ hbounded
        (by rw [hshell, if_pos rfl]) hroom
      rw [hcount] at hle
      refine ⟨(Nat.le_succ _).trans hle, fun k _ hk => ?_, hall⟩
      have hne : k ≠ s.arena.nodes.length := Nat.ne_of_lt hk
      exact (hkept k hne (hcount ▸ Nat.lt_succ_of_lt hk)).trans (by rw [hshell, if_neg hne])

theorem keepsBounds_copyNode : KeepsBounds a (a.copyNode i).2 := fun ha => by
  obtain ⟨-, hkept, hbounded⟩ := grown_copyWithin (a.nodes.length + 1) i ⟨a, []⟩ ha
  refine ⟨hbounded, fun k hk => ?_⟩
  obtain ⟨s, m, hm, haccepts⟩ := hk
  exact ⟨s, m, (hkept k not_false (arity?_lt hm)).trans hm, haccepts⟩

/-! ## 6. Moves and sessions -/

theorem Remembers.arity? (h : Remembers X a b) (i : NodeId) : b.arity? i = a.arity? i := by
  have hnode := congrArg (Option.map fun n => (n.symbol, n.children.length)) (h.nodes i)
  rw [Option.map_map, Option.map_map] at hnode
  exact hnode

/-- **Every move keeps to the bounds.** -/
theorem Moved.keepsBounds (h : Moved X T a b) : KeepsBounds a b := by
  induction h with
  | refl => exact .of_same fun _ => rfl
  | trans _ _ ih ih' => exact ih.trans ih'
  | @made a n hchildren _ =>
    refine .of_new (fun i hi => ?_) fun i s k hi hk => ?_
    · rw [arity?_allocate, if_neg (Nat.ne_of_lt hi)]
    · rw [arity?_allocate, hchildren] at hk
      split at hk
      · cases hk
        exact Nat.zero_le _
      · rw [arity?_of_le hi] at hk
        cases hk
  | loaded ht => exact keepsBounds_plant ht
  | copied _ => exact keepsBounds_copyNode
  | inserted _ _ h => exact keepsBounds_insertChild h
  | removed _ h => exact keepsBounds_removeChild h
  | replaced _ _ h => exact keepsBounds_replaceChild h
  | changed _ h => exact keepsBounds_changeSymbol h
  | valued _ =>
    refine .of_same fun _ => arity?_alter_same fun n => ?_
    split <;> exact ⟨rfl, rfl⟩
  | freed _ => exact .of_same fun _ => arity?_setParent none
  | rooted _ _ => exact .of_same fun _ => rfl
  | treed _ => exact .of_same fun _ => rfl
  | @treeCopied a t _ =>
    rw [copyTree]
    split
    · exact .of_same fun _ => rfl
    · exact keepsBounds_copyNode.trans (.of_same fun _ => rfl)
  | remembered h => exact .of_same h.arity?

end Arena

namespace Session

open Arena

/-- Steps take an arena through moves when nothing is to be left alone. -/
theorem moved_steps (steps : List Step) (s : Session) :
    Moved (fun _ => False) (fun _ => False) s.arena
      (s.through steps).arena := by
  induction steps generalizing s with
  | nil => exact .refl
  | cons step steps ih =>
    refine .trans (moved_advance (fun _ _ _ _ => ?_) (fun _ _ => not_false) fun _ _ => not_false) (ih _)
    exact ⟨fun _ _ => not_false, fun _ _ => not_false⟩

theorem bounded_after (g : Grammar) (steps : List Step) : (after g steps).arena.Bounded := by
  have hmoved := moved_steps steps { grammar := g }
  exact (hmoved.keepsBounds fun _ _ _ h => by cases h).1

/-- **Children stay within bounds, and what is refused changes nothing.**  Whatever a session has done, no
node has more children than its symbol takes.  A node that has as many as its symbol takes has as many as
its symbol takes, whichever that is then, after whatever is done further.  A call with whatever nodes and
index, performed assignment by assignment, leaves every node and every root as it was if it is refused;
and each step that edits is such a call, or fails and leaves the session as it was. -/
theorem bounds_after (g : Grammar) (steps : List Step) :
    (∀ i n, (after g steps).arena.node? i = some n → n.children.length ≤ n.symbol.most) ∧
      (∀ (more : List Step) (i : NodeId) (n : Node), (after g steps).arena.node? i = some n →
        n.symbol.accepts n.children.length = true →
        ∃ n', (after g (steps ++ more)).arena.node? i = some n' ∧
          n'.symbol.accepts n'.children.length = true) ∧
      (∀ (e : Edit) (failure : Failure) (b : Arena),
        e.inSteps.run (after g steps).arena = (.error failure, b) → b = (after g steps).arena) ∧
      ∀ step : Step, step.isEdit = true →
        (∃ failure, (after g steps).advance step = (.error failure, after g steps)) ∨
          ∃ (e : Edit) (b : Arena) (reply : Reply),
            e.inSteps.run (after g steps).arena = (.ok (), b) ∧
            (after g steps).advance step = (.ok reply, { after g steps with arena := b }) := by
  refine ⟨fun i n hn => ?_, fun more i n hn haccepts => ?_, fun e failure b => e.unchanged_of_error,
    fun step hedit => edit_cases (after g steps) hedit⟩
  · exact bounded_after g steps i n.symbol _ (arity?_of_node? hn)
  · have hkeeps := (moved_steps more (after g steps)).keepsBounds (bounded_after g steps)
    obtain ⟨s, k, hk, hfits⟩ := hkeeps.2 i ⟨_, _, arity?_of_node? hn, haccepts⟩
    rw [after_append]
    obtain ⟨n', hn', hpair⟩ := Option.map_eq_some_iff.mp hk
    obtain ⟨rfl, rfl⟩ := Prod.mk.inj hpair
    exact ⟨n', hn', hfits⟩

/-- A copied mean that one child is taken out of still has as many as it takes, and a constant gets none. -/
theorem bounds_of_copying :
    (∃ n, (after .short (copying ++ [.remove (some "copy") 0])).arena.node? 3 = some n ∧
      n.symbol.accepts n.children.length = true) ∧
    ∃ failure, (after .short copying).advance (.add (some "two") (some "three")) =
      (.error failure, after .short copying) := by
  obtain ⟨-, hwithin, -, hedit⟩ := bounds_after .short copying
  refine ⟨?_, ?_⟩
  · obtain ⟨n, hn⟩ := exists_node? (a := (after .short copying).arena) (i := 3) (by decide +kernel)
    have haccepts : ((after .short copying).arena.node? 3).all
        (fun n => n.symbol.accepts n.children.length) = true := by decide +kernel
    rw [hn] at haccepts
    exact hwithin _ 3 n hn haccepts
  · refine (hedit (.add (some "two") (some "three")) rfl).resolve_right ?_
    rintro ⟨e, b, reply, -, hok⟩
    have hrefused : ((after .short copying).advance (.add (some "two") (some "three"))).1.toBool =
      false := by decide +kernel
    rw [hok] at hrefused
    cases hrefused

end Session
end FormulaEvolution
