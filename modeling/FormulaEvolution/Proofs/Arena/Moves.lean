/-
# What steps do to an arena

Whatever a step of a session is, it takes the arena through a few kinds of moves (`Arena.Moved`): a node
or a tree is made, children are put in, taken out or exchanged, a symbol is exchanged, nodes are copied,
and so on.  What all moves keep is kept by every session (`Session.moved_advance`).

Moves are told apart from nodes and trees that are not to be touched.  A step that names none of those
nodes touches none of them either, if no link leads from the others to them (`Arena.Shut`): walks go
along links, and so do the nodes that forget and the nodes that are copied.
-/
import FormulaEvolution.Proofs.Arena.Asking
import FormulaEvolution.Proofs.Arena.Loading
import FormulaEvolution.Proofs.Arena.Session

namespace FormulaEvolution

/-- A node has links to nodes outside of a set only. -/
structure Node.Outside (X : NodeId → Prop) (n : Node) : Prop where
  children : ∀ c ∈ n.children, ¬X c
  parent : ∀ p, n.parent = some p → ¬X p

namespace Arena

variable {X : NodeId → Prop} {T : TreeId → Prop} {a b d : Arena} {p c i : NodeId} {index : Int}
  {c? : Option NodeId} {t : TreeId}

/-! ## 1. What operations that succeed have done -/

theorem insertChild_ok (h : a.insertChild p index c? = .ok b) : ∃ n c, a.node? p = some n ∧
    c? = some c ∧ n.children.length + 1 ≤ n.symbol.most ∧
    b = ((a.setChildren p (n.children.insertIdx (insertPosition n.children.length index) c)).setParent c
      (some p)).forgetUpward p := by
  obtain ⟨n, hexpect, h⟩ := Except.bind_ok h
  match c? with
  | none => cases h
  | some c =>
    simp only at h
    split at h
    · cases h
    · next hroom =>
      exact ⟨n, c, node?_of_expect hexpect, rfl, by omega, (Except.ok.inj h).symm⟩

theorem addChild_ok (h : a.addChild p c? = .ok b) : ∃ index, a.insertChild p index c? = .ok b := by
  obtain ⟨n, -, h⟩ := Except.bind_ok h
  exact ⟨_, h⟩

theorem removeChild_ok (h : a.removeChild p index = .ok (c, b)) : ∃ n, a.node? p = some n ∧
    n.children[index.toNat]? = some c ∧ n.symbol.least ≤ n.children.length - 1 ∧
    b = ((a.setChildren p (n.children.eraseIdx index.toNat)).setParent c none).forgetUpward p := by
  obtain ⟨n, hexpect, h⟩ := Except.bind_ok h
  obtain ⟨d, hat, h⟩ := Except.bind_ok h
  simp only at h
  split at h
  · cases h
  · next hroom =>
    obtain ⟨rfl, rfl⟩ := Prod.mk.inj (Except.ok.inj h)
    exact ⟨n, node?_of_expect hexpect, childAt_ok hat, by omega, rfl⟩

theorem replaceChild_ok {old : NodeId} (h : a.replaceChild p index c? = .ok (old, b)) :
    ∃ n c, a.node? p = some n ∧ c? = some c ∧ n.children[index.toNat]? = some old ∧
    b = (((a.setParent old none).setChildren p (n.children.set index.toNat c)).setParent c
      (some p)).forgetUpward p := by
  obtain ⟨n, hexpect, h⟩ := Except.bind_ok h
  match c? with
  | none => cases h
  | some c =>
    obtain ⟨d, hat, h⟩ := Except.bind_ok h
    obtain ⟨rfl, rfl⟩ := Prod.mk.inj (Except.ok.inj h)
    exact ⟨n, c, node?_of_expect hexpect, rfl, childAt_ok hat, rfl⟩

theorem changeSymbol_ok {s : Symbol} (h : a.changeSymbol i s = .ok b) : ∃ n, a.node? i = some n ∧
    s.accepts n.children.length = true ∧ b = a.alter i fun n => { n with symbol := s } := by
  obtain ⟨n, hexpect, h⟩ := Except.bind_ok h
  split at h
  · next haccepts => exact ⟨n, node?_of_expect hexpect, haccepts, (Except.ok.inj h).symm⟩
  · cases h

theorem setRoot_ok (h : a.setRoot t c? = .ok b) : ∃ c, c? = some c ∧
    b = { a.setParent c none with roots := a.roots.set t (some c) } := by
  match c? with
  | none => cases h
  | some c => exact ⟨c, rfl, (Except.ok.inj h).symm⟩

/-- A node is replaced as the root of the tree or as a child of its parent. -/
theorem replaceNode_ok {old new : Option NodeId} (h : a.replaceNode t old new = .ok b) :
    a.setRoot t new = .ok b ∨ ∃ i p index j, old = some i ∧ a.parentOf i = some p ∧
      a.replaceChild p index new = .ok (j, b) := by
  unfold replaceNode at h
  split at h
  · exact .inl h
  · match old with
    | none => cases h
    | some i =>
      simp only at h
      split at h
      · cases h
      · next p index hplace =>
        obtain ⟨q, hq, hindex⟩ := Option.bind_eq_some_iff.mp hplace
        obtain ⟨k, -, hpair⟩ := Option.map_eq_some_iff.mp hindex
        obtain ⟨rfl, rfl⟩ := Prod.mk.inj hpair
        cases hresult : a.replaceChild q k new with
        | error failure => rw [hresult] at h; cases h
        | ok result =>
          rw [hresult] at h
          obtain rfl := Except.ok.inj h
          exact .inr ⟨i, q, k, result.1, rfl, hq, hresult⟩

/-- Copying a node that has not been copied yet adds its shell and goes on with its children. -/
theorem copyWithin_new {bound : Nat} {s : CopyState} {n : Node} (hfree : s.copyOf? i = none)
    (hn : s.arena.node? i = some n) : copyWithin (bound + 1) i s = (s.arena.nodes.length,
      copyChildren (copyWithin bound) s.arena.nodes.length (copiedChildren n) (s.addShell i n).2) := by
  rw [copyWithin, hfree]
  simp only [hn]
  rfl

/-- Copying does nothing, or adds a shell and goes on. -/
theorem copyWithin_cases (bound : Nat) (i : NodeId) (s : CopyState) :
    (copyWithin bound i s).2 = s ∨ ∃ bound' n, bound = bound' + 1 ∧ s.copyOf? i = none ∧
      s.arena.node? i = some n := by
  match bound with
  | 0 => exact .inl rfl
  | bound + 1 =>
    cases hfree : s.copyOf? i with
    | some j =>
      left
      rw [copyWithin, hfree]
    | none =>
      cases hn : s.arena.node? i with
      | none =>
        left
        rw [copyWithin, hfree]
        simp only [hn]
      | some n => exact .inr ⟨bound, n, rfl, rfl, rfl⟩

/-! ## 2. Moves -/

/-- No link leads from nodes outside a set to nodes inside. -/
def Shut (X : NodeId → Prop) (a : Arena) : Prop :=
  ∀ i n, ¬X i → a.node? i = some n → n.Outside X

/-- Nodes outside a set have come to remember something; all else is as it was. -/
structure Remembers (X : NodeId → Prop) (a b : Arena) : Prop where
  nodes : ∀ i, (b.node? i).map Node.forgotten = (a.node? i).map Node.forgotten
  spared : ∀ i, X i → b.node? i = a.node? i
  roots : b.roots = a.roots

/-- What an arena goes through while nodes of a set and trees of a set are not touched. -/
inductive Moved (X : NodeId → Prop) (T : TreeId → Prop) : Arena → Arena → Prop
  | refl {a : Arena} : Moved X T a a
  | trans {a b d : Arena} : Moved X T a b → Moved X T b d → Moved X T a d
  | made {a : Arena} {n : Node} : n.children = [] → n.parent = none → Moved X T a (a.allocate n).2
  | loaded {a : Arena} {t : Tree} : t.Fits → Moved X T a (a.plant none t).2
  | copied {a : Arena} {i : NodeId} : ¬X i → Moved X T a (a.copyNode i).2
  | inserted {a b : Arena} {p c : NodeId} {index : Int} : ¬X p → ¬X c →
    a.insertChild p index (some c) = .ok b → Moved X T a b
  | removed {a b : Arena} {p c : NodeId} {index : Int} : ¬X p →
    a.removeChild p index = .ok (c, b) → Moved X T a b
  | replaced {a b : Arena} {p c old : NodeId} {index : Int} : ¬X p → ¬X c →
    a.replaceChild p index (some c) = .ok (old, b) → Moved X T a b
  | changed {a b : Arena} {i : NodeId} {s : Symbol} : ¬X i → a.changeSymbol i s = .ok b → Moved X T a b
  | valued {a : Arena} {i : NodeId} {x : Float} : ¬X i → Moved X T a (a.setValue i x)
  | freed {a : Arena} {i : NodeId} : ¬X i → Moved X T a (a.setParent i none)
  | rooted {a : Arena} {t : TreeId} {i : NodeId} : ¬T t → ¬X i →
    Moved X T a { a with roots := a.roots.set t (some i) }
  | treed {a : Arena} {r : Option NodeId} : (∀ i, r = some i → ¬X i) → Moved X T a (a.allocateTree r).2
  | treeCopied {a : Arena} {t : TreeId} : (∀ i, a.root? t = some i → ¬X i) → Moved X T a (a.copyTree t).2
  | remembered {a b : Arena} : Remembers X a b → Moved X T a b

theorem moved_insertChild (hp : ¬X p) (hc : ∀ c, c? = some c → ¬X c)
    (h : a.insertChild p index c? = .ok b) : Moved X T a b := by
  obtain ⟨n, c, -, rfl, -, -⟩ := insertChild_ok h
  exact .inserted hp (hc c rfl) h

theorem moved_replaceChild {old : NodeId} (hp : ¬X p) (hc : ∀ c, c? = some c → ¬X c)
    (h : a.replaceChild p index c? = .ok (old, b)) : Moved X T a b := by
  obtain ⟨n, c, -, rfl, -, -⟩ := replaceChild_ok h
  exact .replaced hp (hc c rfl) h

theorem moved_setRoot (ht : ¬T t) (hc : ∀ c, c? = some c → ¬X c) (h : a.setRoot t c? = .ok b) :
    Moved X T a b := by
  obtain ⟨c, rfl, rfl⟩ := setRoot_ok h
  exact .trans (.freed (hc c rfl)) (.rooted (a := a.setParent c none) ht (hc c rfl))

theorem moved_replaceNode {old new : Option NodeId} (hshut : Shut X a) (ht : ¬T t)
    (hold : ∀ i, old = some i → ¬X i) (hnew : ∀ c, new = some c → ¬X c)
    (h : a.replaceNode t old new = .ok b) : Moved X T a b := by
  rcases replaceNode_ok h with h | ⟨i, p, index, j, hi, hp, h⟩
  · exact moved_setRoot ht hnew h
  · obtain ⟨n, hn, hparent⟩ := Option.bind_eq_some_iff.mp hp
    exact moved_replaceChild ((hshut i n (hold i hi) hn).2 p hparent) hnew h

theorem moved_newTree (hc : ∀ c, c? = some c → ¬X c) : Moved X T a (a.newTree c?).2 := by
  match c? with
  | none => exact .treed nofun
  | some c => exact .trans (.freed (hc c rfl)) (.treed hc)

/-! ## 3. Questions -/

theorem Remembers.refl : Remembers X a a := ⟨fun _ => rfl, fun _ _ => rfl, rfl⟩

theorem Remembers.trans (h : Remembers X a b) (h' : Remembers X b d) : Remembers X a d :=
  ⟨fun i => (h'.nodes i).trans (h.nodes i), fun i hi => (h'.spared i hi).trans (h.spared i hi),
    h'.roots.trans h.roots⟩

theorem Remembers.alter {f : Node → Node} (h : Remembers X a b) (hi : ¬X i)
    (hf : ∀ n, (f n).forgotten = n.forgotten) : Remembers X a (b.alter i f) := by
  refine h.trans ⟨fun j => ?_, fun j hj => ?_, rfl⟩
  · rw [node?_alter]
    split
    · rw [Option.map_map]
      exact congrArg (Option.map · _) (funext hf)
    · rfl
  · rw [node?_alter, if_neg]
    rintro rfl
    exact hi hj

theorem Remembers.length (h : Remembers X a b) : b.nodes.length = a.nodes.length := by
  have hnone : ∀ i, b.node? i = none ↔ a.node? i = none := fun i => by
    have hnode := h.nodes i
    cases ha : a.node? i <;> cases hb : b.node? i <;> simp_all
  refine Nat.le_antisymm ?_ ?_
  · exact List.getElem?_eq_none_iff.mp ((hnone _).mpr (node?_of_le (Nat.le_refl _)))
  · exact List.getElem?_eq_none_iff.mp ((hnone _).mp (node?_of_le (Nat.le_refl _)))

/-- Links are as they were. -/
theorem Remembers.shut (h : Remembers X a b) (hshut : Shut X a) : Shut X b := by
  intro i n hi hn
  have hnode := h.nodes i
  rw [hn] at hnode
  obtain ⟨m, hm, hmn⟩ := Option.map_eq_some_iff.mp hnode.symm
  have hsame : m.children = n.children ∧ m.parent = n.parent := by
    simp only [Node.forgotten, Node.mk.injEq] at hmn
    exact ⟨hmn.2.2.1, hmn.2.2.2.1⟩
  obtain ⟨hchildren, hparent⟩ := hshut i m hi hm
  exact ⟨hsame.1 ▸ hchildren, hsame.2 ▸ hparent⟩

/-- **A question to a node is remembered only at nodes that it leads to.** -/
theorem Quantity.remembers_askWithin (q : Quantity) (hq : ∀ k n, (q.remember k n).forgotten = n.forgotten)
    (hshut : Shut X a) : ∀ {bound i}, ¬X i → ∀ b, Remembers X a b →
      Remembers X a ((q.askWithin bound i).run b).2
  | 0, _, _, _, hb => hb
  | bound + 1, i, hi, b, hb => by
    rw [askWithin, askOnce, run_get_bind]
    refine bind_leaves (by cases b.expect i <;> exact hb) fun n b' hrun hb' => ?_
    have hn : b.node? i = some n := by
      refine node?_of_expect ?_
      cases hexpect : b.expect i with
      | error failure => rw [hexpect] at hrun; cases hrun
      | ok m => rw [hexpect] at hrun; cases hrun; rfl
    cases q.known n with
    | some known => exact hb'
    | none =>
      have hbelow := (hb.shut hshut i n hi hn).1
      refine bind_leaves (mapM_leaves (fun c hc d hd => remembers_askWithin q hq hshut (hbelow c hc) d hd)
        b' hb') fun ks d _ hd => hd.alter hi fun n => hq _ n

theorem remembers_askLength (hshut : Shut X a) (hi : ¬X i) (hb : Remembers X a b) :
    Remembers X a ((askLength i).run b).2 := by
  rw [askLength, run_get_bind, askLengthWithin_eq]
  exact Quantity.length.remembers_askWithin (fun _ _ => rfl) hshut hi b hb

theorem remembers_askDepth (hshut : Shut X a) (hi : ¬X i) (hb : Remembers X a b) :
    Remembers X a ((askDepth i).run b).2 := by
  rw [askDepth, run_get_bind, askDepthWithin_eq]
  exact Quantity.depth.remembers_askWithin (fun _ _ => rfl) hshut hi b hb

section Trees

variable (hshut : Shut X a) (hroot : ∀ i, a.root? t = some i → ¬X i)

include hshut hroot

theorem remembers_askTreeLength (hb : Remembers X a b) :
    Remembers X a ((askTreeLength t).run b).2 := by
  rw [askTreeLength, run_get_bind]
  cases hr : b.root? t with
  | none => exact hb
  | some i => exact remembers_askLength hshut (hroot i (by rw [← hr, root?, root?, hb.roots])) hb

theorem remembers_askTreeDepth (hb : Remembers X a b) :
    Remembers X a ((askTreeDepth t).run b).2 := by
  rw [askTreeDepth, run_get_bind]
  cases hr : b.root? t with
  | none => exact hb
  | some i => exact remembers_askDepth hshut (hroot i (by rw [← hr, root?, root?, hb.roots])) hb

theorem remembers_askDescription : Remembers X a ((askDescription t).run a).2 :=
  bind_leaves (remembers_askTreeLength hshut hroot .refl) fun _ _ _ hb =>
    bind_leaves (remembers_askTreeDepth hshut hroot hb) fun _ _ _ hd => hd

theorem remembers_askDocument : Remembers X a ((askDocument t).run a).2 := by
  rw [askDocument, run_get_bind]
  refine bind_leaves (by cases a.toTree? t <;> exact .refl) fun tree b _ hb => ?_
  exact bind_leaves (remembers_askTreeLength hshut hroot hb) fun _ _ _ hd =>
    bind_leaves (remembers_askTreeDepth hshut hroot hd) fun _ _ _ he => he

end Trees

end Arena

/-! ## 4. Steps -/

namespace Session

open Arena

/-- A session after some more steps. -/
def through (s : Session) (steps : List Step) : Session :=
  steps.foldl (fun s step => (s.advance step).2) s

theorem after_append (g : Grammar) (steps more : List Step) :
    after g (steps ++ more) = (after g steps).through more := List.foldl_append

/-- Steps that only look at the arena and at names. -/
def Step.looks : Step → Bool
  | .check .. | .indexOf .. | .level .. | .parent .. | .children .. | .preorder .. | .postorder ..
  | .text .. | .leaf .. | .same .. | .value .. | .evaluate .. | .interpret .. | .compile .. => true
  | _ => false

theorem reads_of_looks : ∀ {step : Step}, step.looks = true → Reads (perform step)
  | .check r, _ => by
    refine reads_bind (reads_top? r) fun i? => ?_
    cases i? with
    | none => exact reads_pure _
    | some i => exact reads_bind (reads_look _) fun _ => reads_pure _
  | .indexOf p c, _ => reads_bind (reads_node p) fun _ => reads_bind (reads_node? c) fun _ =>
    reads_bind reads_get fun _ => reads_pure _
  | .level r, _ | .parent r, _ | .children r, _ | .leaf r, _ =>
    reads_bind (reads_node r) fun _ => reads_bind reads_get fun _ => reads_pure _
  | .preorder r, _ | .postorder r, _ => by
    refine reads_bind (reads_top? r) fun i? => ?_
    cases i? with
    | none => exact reads_pure _
    | some i => exact reads_bind (reads_look _) fun _ => reads_symbolNames _
  | .text r, _ => reads_bind (reads_item r) fun _ => reads_bind (reads_textOf _) fun _ => reads_pure _
  | .same r q, _ => reads_bind (reads_item r) fun _ => reads_bind (reads_item q) fun _ => reads_pure _
  | .value r, _ => reads_bind (reads_node r) fun _ => reads_bind (reads_look _) fun _ => reads_pure _
  | .evaluate r _ _, _ => reads_bind (reads_node r) fun _ => reads_bind (reads_look _) fun _ =>
    reads_bind (reads_ofExcept _) fun _ => reads_bind (reads_ofExcept _) fun _ => reads_pure _
  | .interpret r _, _ | .compile r, _ => reads_bind (reads_treeValue r) fun _ =>
    reads_bind (reads_ofExcept _) fun _ => reads_pure _

/-- The names that a step goes by, those that it gives apart. -/
def Step.refs : Step → List Ref
  | .plain .. | .constant .. | .variable .. | .create .. | .load .. => []
  | .add p c | .insert p _ c | .replace p _ c | .indexOf p c => [p, c]
  | .setRoot t r => [t, r]
  | .replaceNode t old new => [t, old, new]
  | .same r q => [r, q]
  | .plant _ r | .remove r _ | .change r _ | .check r | .root r _ | .copy r _ | .child r _ _ | .level r
  | .parent r | .children r | .preorder r | .postorder r | .length r | .depth r | .text r | .describe r
  | .document r | .leaf r | .setValue r _ | .value r | .shake r _ _ | .resetValue r _ | .evaluate r _ _
  | .interpret r _ | .compile r => [r]

/-- A step touches a tree that it names. -/
def TouchesTree (s : Session) (step : Step) (t : TreeId) : Prop :=
  ∃ r ∈ step.refs, s.itemOf r = .ok (.tree t)

/-- A step touches a node that it names, and the root of a tree that it names. -/
def Touches (s : Session) (step : Step) (i : NodeId) : Prop :=
  ∃ r ∈ step.refs, s.itemOf r = .ok (.node i) ∨ ∃ t, s.itemOf r = .ok (.tree t) ∧ s.arena.root? t = some i

section Steps

variable {α β : Type} {s : Session} {R : Session → Prop}

/-- Work leads to a session of which something is true, also where it fails. -/
def Leads (s : Session) (R : Session → Prop) (w : Work α) : Prop := R (w.run s).2

theorem leads_reads {w : Work α} (hs : R s) (hread : Reads w) : Leads s R w := by
  rwa [Leads, hread]

/-- Reading leads on from the same arena. -/
theorem leads_reading {first : Work α} {next : α → Work β} (hs : R s) (hread : Reads first)
    (hnext : ∀ x, first.run s = (.ok x, s) → Leads s R (next x)) : Leads s R (first >>= next) := by
  refine bind_leaves (P := R) (by rwa [hread]) fun x s' hrun _ => ?_
  have hsame := hread s
  rw [hrun] at hsame
  obtain rfl : s' = s := hsame
  exact hnext x hrun

/-- A change leads to its result. -/
theorem leads_changeWith {f : Arena → Except Failure (α × Arena)} {next : α → Work β} (hs : R s)
    (hnext : ∀ x b, f s.arena = .ok (x, b) → Leads { s with arena := b } R (next x)) :
    Leads s R (changeWith f >>= next) := by
  have hassoc : changeWith f >>= next = look f >>= fun result =>
      modify (fun s => { s with arena := result.2 }) >>= fun _ => next result.1 := by
    simp only [changeWith, bind_assoc, pure_bind]
  rw [hassoc]
  exact leads_reading hs (reads_look f) fun result hrun => hnext result.1 result.2 (Prod.mk.inj hrun).1

/-- A change that is always made leads to its result. -/
theorem leads_makeWith {f : Arena → α × Arena} {next : α → Work β}
    (hnext : Leads { s with arena := (f s.arena).2 } R (next (f s.arena).1)) :
    Leads s R (changeWith (fun a => .ok (f a)) >>= next) := hnext

theorem leads_change {f : Arena → Except Failure Arena} (hs : R s)
    (hf : ∀ b, f s.arena = .ok b → R { s with arena := b }) : Leads s R (change f) := by
  refine leads_changeWith hs fun _ b hresult => ?_
  cases hfs : f s.arena with
  | error failure => rw [hfs] at hresult; cases hresult
  | ok b' =>
    rw [hfs] at hresult
    obtain rfl : b' = b := (Prod.mk.inj (Except.ok.inj hresult)).2
    exact hf b' hfs

/-- An answer of the arena leads to what has come to be remembered. -/
theorem leads_ask {q : Asking α} {next : α → Work β} (hq : R { s with arena := (q.run s.arena).2 })
    (hnext : ∀ x, Reads (next x)) : Leads s R (ask q >>= next) :=
  bind_leaves (P := R) hq fun x _ _ hs => leads_reads hs (hnext x)

theorem itemOf_of_item {r : Ref} {x : Item} (h : (item r).run s = (.ok x, s)) : s.itemOf r = .ok x := by
  rw [run_item] at h
  exact (Prod.mk.inj h).1

theorem item_of_tree {r : Ref} {t : TreeId} (h : (tree r).run s = (.ok t, s)) :
    s.itemOf r = .ok (.tree t) := by
  obtain ⟨name, rfl, hname⟩ := name_of_tree h
  rw [itemOf, hname]

theorem item_of_node? {r : Ref} {i? : Option NodeId} (h : (node? r).run s = (.ok i?, s)) :
    ∀ i, i? = some i → s.itemOf r = .ok (.node i) := by
  intro i hi
  obtain ⟨name, rfl, hname⟩ := means_of_node? h i hi
  rw [itemOf, hname]

end Steps

section Moving

variable {X : NodeId → Prop} {T : TreeId → Prop} {s : Session} {step : Step}

/-- A step that makes something or changes it takes the arena through moves. -/
theorem moved_performChange (hshut : Shut X s.arena) :
    ∀ step : Step, (∀ i, s.Touches step i → ¬X i) → (∀ t, s.TouchesTree step t → ¬T t) →
      Leads s (fun s' => Moved X T s.arena s'.arena) (performChange step) := by
  have hrefl : Moved X T s.arena s.arena := .refl
  intro step hnodes htrees
  have hnode : ∀ r ∈ step.refs, ∀ i s', (node r).run s = (.ok i, s') → ¬X i :=
    fun r hr i s' hrun => hnodes i ⟨r, hr, .inl (item_of_node hrun)⟩
  have hnode? : ∀ r ∈ step.refs, ∀ i?, (node? r).run s = (.ok i?, s) → ∀ i, i? = some i → ¬X i :=
    fun r hr i? hrun i hi => hnodes i ⟨r, hr, .inl (item_of_node? hrun i hi)⟩
  have htree : ∀ r ∈ step.refs, ∀ t, (tree r).run s = (.ok t, s) → ¬T t :=
    fun r hr t hrun => htrees t ⟨r, hr, item_of_tree hrun⟩
  cases step with
  | plain into name =>
    refine leads_reading hrefl reads_get fun _ _ => leads_reading hrefl (reads_ofExcept _) fun n hn => ?_
    have hnew := new_of_makePlain (Prod.mk.inj hn).1
    exact .made hnew.children hnew.parent
  | constant into value name =>
    refine leads_reading hrefl (reads_symbol name) fun _ _ =>
      leads_reading hrefl (reads_ofExcept _) fun n hn => ?_
    have hnew := new_of_makeConstant (Prod.mk.inj hn).1
    exact .made hnew.children hnew.parent
  | «variable» into name =>
    refine leads_reading hrefl (reads_symbol name) fun _ _ =>
      leads_reading hrefl (reads_ofExcept _) fun n hn => ?_
    have hnew := new_of_makeVariable (Prod.mk.inj hn).1
    exact .made hnew.children hnew.parent
  | create into name draw => exact leads_reading hrefl (reads_symbol name) fun _ _ => .made rfl rfl
  | plant into r =>
    exact leads_reading hrefl (reads_node? r) fun i? hi =>
      moved_newTree (hnode? r (by simp [Step.refs]) i? hi)
  | load into data =>
    exact leads_reading hrefl reads_get fun _ _ => leads_reading hrefl (reads_ofExcept _) fun t ht =>
      .loaded (Tree.fits_of_read (Prod.mk.inj ht).1)
  | add p c =>
    refine leads_reading hrefl (reads_node p) fun i hi => leads_reading hrefl (reads_node? c) fun c? hc =>
      leads_change hrefl fun b hb => ?_
    obtain ⟨index, hb⟩ := addChild_ok hb
    exact moved_insertChild (hnode p (by simp [Step.refs]) i s hi) (hnode? c (by simp [Step.refs]) c? hc) hb
  | insert p index c =>
    exact leads_reading hrefl (reads_node p) fun i hi => leads_reading hrefl (reads_node? c) fun c? hc =>
      leads_change hrefl fun b hb => moved_insertChild (hnode p (by simp [Step.refs]) i s hi)
        (hnode? c (by simp [Step.refs]) c? hc) hb
  | remove p index =>
    exact leads_reading hrefl (reads_node p) fun i hi => leads_changeWith hrefl fun c b hb =>
      .removed (hnode p (by simp [Step.refs]) i s hi) hb
  | replace p index c =>
    exact leads_reading hrefl (reads_node p) fun i hi => leads_reading hrefl (reads_node? c) fun c? hc =>
      leads_changeWith hrefl fun old b hb => moved_replaceChild (hnode p (by simp [Step.refs]) i s hi)
        (hnode? c (by simp [Step.refs]) c? hc) hb
  | change r name =>
    exact leads_reading hrefl (reads_node r) fun i hi => leads_reading hrefl (reads_symbol name) fun _ _ =>
      leads_change hrefl fun b hb => .changed (hnode r (by simp [Step.refs]) i s hi) hb
  | setRoot t r =>
    exact leads_reading hrefl (reads_tree t) fun u hu => leads_reading hrefl (reads_node? r) fun i? hi =>
      leads_change hrefl fun b hb => moved_setRoot (htree t (by simp [Step.refs]) u hu)
        (hnode? r (by simp [Step.refs]) i? hi) hb
  | root t into =>
    exact leads_reading hrefl (reads_tree t) fun _ _ => leads_reading hrefl reads_get fun _ _ => hrefl
  | replaceNode t old new =>
    exact leads_reading hrefl (reads_tree t) fun u hu => leads_reading hrefl (reads_node? old) fun o ho =>
      leads_reading hrefl (reads_node? new) fun n hn => leads_change hrefl fun b hb =>
        moved_replaceNode hshut (htree t (by simp [Step.refs]) u hu)
          (hnode? old (by simp [Step.refs]) o ho) (hnode? new (by simp [Step.refs]) n hn) hb
  | copy r into =>
    refine leads_reading hrefl (reads_item r) fun x hx => ?_
    have hitem := itemOf_of_item hx
    cases x with
    | node i => exact .copied (hnodes i ⟨r, by simp [Step.refs], .inl hitem⟩)
    | tree t =>
      exact .treeCopied fun i hi => hnodes i ⟨r, by simp [Step.refs], .inr ⟨t, hitem, hi⟩⟩
    | nothing => exact hrefl
  | child p index into =>
    exact leads_reading hrefl (reads_node p) fun _ _ => leads_reading hrefl (reads_look _) fun _ _ => hrefl
  | setValue r value =>
    exact leads_reading hrefl (reads_node r) fun i hi => leads_change hrefl fun b hb =>
      Except.ok.inj hb ▸ .valued (hnode r (by simp [Step.refs]) i s hi)
  | shake r draw factor =>
    exact leads_reading hrefl (reads_node r) fun i hi => leads_reading hrefl (reads_look _) fun _ _ =>
      leads_change hrefl fun b hb => Except.ok.inj hb ▸ .valued (hnode r (by simp [Step.refs]) i s hi)
  | resetValue r draw =>
    exact leads_reading hrefl (reads_node r) fun i hi => leads_reading hrefl (reads_look _) fun _ _ =>
      leads_reading hrefl (reads_look _) fun _ _ => leads_change hrefl fun b hb =>
        Except.ok.inj hb ▸ .valued (hnode r (by simp [Step.refs]) i s hi)
  | _ => exact hrefl

/-- **A step takes the arena through moves**, and touches nothing of what it does not name, if no link
leads there. -/
theorem moved_advance (hshut : Shut X s.arena) (hnodes : ∀ i, s.Touches step i → ¬X i)
    (htrees : ∀ t, s.TouchesTree step t → ¬T t) :
    Moved X T s.arena (s.advance step).2.arena := by
  have hrefl : Moved X T s.arena s.arena := .refl
  have hchange := moved_performChange hshut step hnodes htrees
  have hroot : ∀ r ∈ step.refs, ∀ t, (item r).run s = (.ok (.tree t), s) →
      ∀ i, s.arena.root? t = some i → ¬X i :=
    fun r hr t hrun i hi => hnodes i ⟨r, hr, .inr ⟨t, itemOf_of_item hrun, hi⟩⟩
  have hnode : ∀ r ∈ step.refs, ∀ i, (item r).run s = (.ok (.node i), s) → ¬X i :=
    fun r hr i hrun => hnodes i ⟨r, hr, .inl (itemOf_of_item hrun)⟩
  change Leads s (fun s' => Moved X T s.arena s'.arena) (perform step)
  by_cases hlooks : step.looks = true
  · exact leads_reads hrefl (reads_of_looks hlooks)
  cases step with
  | length r =>
    refine leads_reading hrefl (reads_item r) fun x hx => ?_
    cases x with
    | node i =>
      exact leads_ask (.remembered (remembers_askLength hshut (hnode r (by simp [Step.refs]) i hx) .refl))
        fun _ => reads_pure _
    | tree t =>
      exact leads_ask (.remembered (remembers_askTreeLength hshut (hroot r (by simp [Step.refs]) t hx)
        .refl)) fun _ => reads_pure _
    | nothing => exact hrefl
  | depth r =>
    refine leads_reading hrefl (reads_item r) fun x hx => ?_
    cases x with
    | node i =>
      exact leads_ask (.remembered (remembers_askDepth hshut (hnode r (by simp [Step.refs]) i hx) .refl))
        fun _ => reads_pure _
    | tree t =>
      exact leads_ask (.remembered (remembers_askTreeDepth hshut (hroot r (by simp [Step.refs]) t hx)
        .refl)) fun _ => reads_pure _
    | nothing => exact hrefl
  | describe r =>
    refine leads_reading hrefl (reads_item r) fun x hx => ?_
    cases x with
    | node i => exact leads_reads hrefl (reads_bind (reads_look _) fun _ => reads_pure _)
    | tree t =>
      exact leads_ask (.remembered (remembers_askDescription hshut (hroot r (by simp [Step.refs]) t hx)))
        fun _ => reads_pure _
    | nothing => exact hrefl
  | document r =>
    refine leads_reading hrefl (reads_item r) fun x hx => ?_
    cases x with
    | node i => exact leads_reads hrefl (reads_bind (reads_look _) fun _ => reads_pure _)
    | tree t =>
      exact leads_ask (.remembered (remembers_askDocument hshut (hroot r (by simp [Step.refs]) t hx)))
        fun _ => reads_pure _
    | nothing => exact hrefl
  | _ => first | exact absurd rfl hlooks | exact hchange

end Moving

end Session
end FormulaEvolution
