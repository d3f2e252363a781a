/-
# Sessions that keep arenas sound

A session may do anything but attach a node that has a parent or is above the place, make a node with a
parent a root, or give a constant or a variable a symbol with children (`Session.Allows`).  Whatever it
has done, in whatever order, parents and children agree, nodes hang together without cycles, and every
node answers with its true length and its true height (`Session.answers_of_reached`).

The invariant is that the arena is sound and that names stand for nodes that are there
(`Session.Sound`).  A step reads names and looks at the arena before it changes anything, and reading
changes nothing (`Session.Reads`), so that each step comes down to one change of the arena or one
question to it.
-/
import FormulaEvolution.Arena.Session
import FormulaEvolution.Proofs.Arena.Asking
import FormulaEvolution.Proofs.Arena.Copy
import FormulaEvolution.Proofs.Arena.Planting
import FormulaEvolution.Proofs.Tree.Acceptance

namespace FormulaEvolution
namespace Session

/-! ## 1. What a session may do -/

/-- A name stands for a node. -/
def Means (s : Session) (r : Ref) (i : NodeId) : Prop :=
  ∃ name, r = some name ∧ s.names.value? name = some (.node i)

/-- A step attaches only nodes without a parent that are not above the place, makes only nodes without
a parent roots, and gives constants and variables terminals only. -/
def Allows (s : Session) : Step → Prop
  | .add p c | .insert p _ c | .replace p _ c => ∀ i j, s.Means p i → s.Means c j →
    s.arena.parentOf j = none ∧ ¬ s.arena.links.Below j i
  | .plant _ r | .setRoot _ r => ∀ i, s.Means r i → s.arena.parentOf i = none
  | .replaceNode t old new => ∀ j, s.Means new j → s.arena.parentOf j = none ∧
    ∀ name u i p, t = some name → s.names.value? name = some (.tree u) → s.Means old i →
      s.arena.root? u ≠ some i → s.arena.parentOf i = some p → ¬ s.arena.links.Below j p
  | .change r name => ∀ i n sym, s.Means r i → s.arena.node? i = some n → n.form ≠ .plain →
    s.grammar.symbol? name = some sym → sym.isTerminal = true
  | _ => True

/-- The sessions that start with nothing but a grammar and only do what they may. -/
inductive Reached : Session → Prop
  | start (g : Grammar) : Reached { grammar := g }
  | advance {s : Session} (step : Step) : Reached s → s.Allows step → Reached (s.advance step).2

/-- The arena is sound, and names stand for nodes that are there. -/
structure Sound (s : Session) : Prop where
  arena : s.arena.Sound
  named : ∀ name i, s.names.value? name = some (.node i) → i < s.arena.nodes.length

variable {α β : Type} {s : Session}

theorem Sound.means_lt {r : Ref} {i : NodeId} (h : s.Sound) (hr : s.Means r i) :
    i < s.arena.nodes.length := by
  obtain ⟨name, -, hname⟩ := hr
  exact h.named name i hname

/-- A sound arena with at least as many nodes in place of the present one. -/
theorem Sound.withArena {b : Arena} (h : s.Sound) (hb : b.Sound)
    (hle : s.arena.nodes.length ≤ b.nodes.length) : ({ s with arena := b } : Session).Sound :=
  ⟨hb, fun name i hname => (h.named name i hname).trans_le hle⟩

theorem Sound.bind {name : String} {x : Item} (h : s.Sound)
    (hx : ∀ i, x = .node i → i < s.arena.nodes.length) :
    ({ s with names := s.names.bind name x } : Session).Sound := by
  refine ⟨h.arena, fun other i hi => ?_⟩
  rw [Dictionary.value?_bind] at hi
  split at hi
  · exact hx i (Option.some.inj hi)
  · exact h.named other i hi

/-! ## 2. Reading -/

/-- Work that leaves the session alone. -/
def Reads (w : Work α) : Prop := ∀ s, (w.run s).2 = s

theorem reads_bind {first : Work α} {next : α → Work β} (hfirst : Reads first)
    (hnext : ∀ a, Reads (next a)) : Reads (first >>= next) := by
  intro s
  have hsame := hfirst s
  match hrun : first.run s with
  | (.ok a, s') =>
    rw [hrun] at hsame
    rw [run_bind_ok hrun, hnext a s']
    exact hsame
  | (.error failure, s') =>
    rw [hrun] at hsame
    rw [run_bind_error hrun]
    exact hsame

theorem reads_pure (a : α) : Reads (pure a : Work α) := fun _ => rfl

theorem reads_throw (failure : Failure) : Reads (throw failure : Work α) := fun _ => rfl

theorem reads_get : Reads (get : Work Session) := fun _ => rfl

theorem reads_ofExcept (r : Except Failure α) : Reads (ofExcept r) := fun _ => rfl

theorem reads_look (f : Arena → Except Failure α) : Reads (look f) :=
  reads_bind reads_get fun _ => reads_ofExcept _

theorem reads_item : ∀ r : Ref, Reads (item r)
  | none => reads_pure _
  | some name => reads_bind reads_get fun s => by
    cases s.names.value? name with
    | none => exact reads_throw _
    | some x => exact reads_pure x

theorem reads_node (r : Ref) : Reads (node r) := by
  refine reads_bind (reads_item r) fun x => ?_
  cases x with
  | node i => exact reads_pure i
  | tree t => exact reads_throw _
  | nothing => exact reads_throw _

theorem reads_tree (r : Ref) : Reads (tree r) := by
  refine reads_bind (reads_item r) fun x => ?_
  cases x with
  | node i => exact reads_throw _
  | tree t => exact reads_pure t
  | nothing => exact reads_throw _

theorem reads_node? (r : Ref) : Reads (node? r) := by
  refine reads_bind (reads_item r) fun x => ?_
  cases x with
  | node i => exact reads_pure _
  | tree t => exact reads_throw _
  | nothing => exact reads_pure _

theorem reads_top? (r : Ref) : Reads (top? r) := by
  refine reads_bind (reads_item r) fun x => ?_
  cases x with
  | node i => exact reads_pure _
  | tree t => exact reads_bind reads_get fun _ => reads_pure _
  | nothing => exact reads_throw _

theorem reads_symbol (name : String) : Reads (symbol name) := by
  refine reads_bind reads_get fun s => ?_
  cases s.grammar.symbol? name with
  | none => exact reads_throw _
  | some sym => exact reads_pure sym

theorem reads_symbolNames (is : List NodeId) : Reads (symbolNames is) :=
  reads_bind reads_get fun _ => reads_pure _

theorem reads_textOf : ∀ x : Item, Reads (textOf x)
  | .node _ => reads_bind (reads_look _) fun _ => reads_pure _
  | .tree _ => reads_look _
  | .nothing => reads_pure _

theorem reads_treeValue (r : Ref) : Reads (treeValue r) := by
  refine reads_bind (reads_item r) fun x => ?_
  cases x with
  | node i => exact reads_throw _
  | tree t => exact reads_look _
  | nothing => exact reads_pure _

/-- What a name stands for, as a value. -/
def itemOf (s : Session) : Ref → Except Failure Item
  | none => .ok .nothing
  | some name =>
    match s.names.value? name with
    | some x => .ok x
    | none => .error (.absentKey name)

theorem run_item : ∀ r : Ref, (item r).run s = (s.itemOf r, s)
  | none => rfl
  | some name => by
    rw [item, run_get_bind, itemOf]
    cases s.names.value? name <;> rfl

theorem itemOf_some {r : Ref} {x : Item} (h : s.itemOf r = .ok x) (hx : x ≠ .nothing) :
    ∃ name, r = some name ∧ s.names.value? name = some x := by
  match r with
  | none => exact absurd (Except.ok.inj h).symm hx
  | some name =>
    rw [itemOf] at h
    split at h
    · next y hname => exact ⟨name, rfl, Except.ok.inj h ▸ hname⟩
    · cases h

theorem means_of_item {r : Ref} {i : NodeId} (h : s.itemOf r = .ok (.node i)) : s.Means r i :=
  itemOf_some h nofun

theorem item_of_node {r : Ref} {i : NodeId} {s' : Session} (h : (node r).run s = (.ok i, s')) :
    s.itemOf r = .ok (.node i) := by
  rw [node, run_bind, run_item] at h
  match hitem : s.itemOf r with
  | .ok (.node j) =>
    rw [hitem] at h
    rw [Except.ok.inj (Prod.mk.inj h).1]
  | .ok (.tree _) | .ok .nothing | .error _ =>
    rw [hitem] at h
    cases h

theorem means_of_node {r : Ref} {i : NodeId} {s' : Session} (h : (node r).run s = (.ok i, s')) :
    s.Means r i := means_of_item (item_of_node h)

theorem means_of_node? {r : Ref} {i? : Option NodeId} {s' : Session}
    (h : (node? r).run s = (.ok i?, s')) : ∀ i, i? = some i → s.Means r i := by
  rintro i rfl
  rw [node?, run_bind, run_item] at h
  match hitem : s.itemOf r with
  | .ok (.node j) =>
    rw [hitem] at h
    rw [← Option.some.inj (Except.ok.inj (Prod.mk.inj h).1)]
    exact means_of_item hitem
  | .ok (.tree _) | .ok .nothing | .error _ =>
    rw [hitem] at h
    cases h

theorem name_of_tree {r : Ref} {t : TreeId} {s' : Session} (h : (tree r).run s = (.ok t, s')) :
    ∃ name, r = some name ∧ s.names.value? name = some (.tree t) := by
  rw [tree, run_bind, run_item] at h
  match hitem : s.itemOf r with
  | .ok (.tree u) =>
    rw [hitem] at h
    rw [← Except.ok.inj (Prod.mk.inj h).1]
    exact itemOf_some hitem nofun
  | .ok (.node _) | .ok .nothing | .error _ =>
    rw [hitem] at h
    cases h

theorem symbol?_of_symbol {name : String} {sym : Symbol} {s' : Session}
    (h : (symbol name).run s = (.ok sym, s')) : s.grammar.symbol? name = some sym := by
  rw [symbol, run_get_bind] at h
  cases hsym : s.grammar.symbol? name with
  | none =>
    rw [hsym] at h
    cases h
  | some sym' =>
    rw [hsym] at h
    rw [Except.ok.inj (Prod.mk.inj h).1]

theorem run_look (f : Arena → Except Failure α) : (look f).run s = (f s.arena, s) := rfl

/-! ## 3. Changes -/

/-- A step that reads first goes on from the same session. -/
theorem Sound.after_reading {first : Work α} {next : α → Work β} (h : s.Sound) (hread : Reads first)
    (hnext : ∀ a, first.run s = (.ok a, s) → ((next a).run s).2.Sound) :
    ((first >>= next).run s).2.Sound := by
  have hsame := hread s
  match hrun : first.run s with
  | (.ok a, s') =>
    rw [hrun] at hsame
    obtain rfl : s' = s := hsame
    rw [run_bind_ok hrun]
    exact hnext a hrun
  | (.error failure, s') =>
    rw [hrun] at hsame
    obtain rfl : s' = s := hsame
    rw [run_bind_error hrun]
    exact h

/-- A change of the arena, and what is done with its result. -/
theorem Sound.changeWith {f : Arena → Except Failure (α × Arena)} {next : α → Work β} (h : s.Sound)
    (hf : ∀ r b, f s.arena = .ok (r, b) → b.Sound ∧ s.arena.nodes.length ≤ b.nodes.length)
    (hnext : ∀ r b, f s.arena = .ok (r, b) → ({ s with arena := b } : Session).Sound →
      ((next r).run { s with arena := b }).2.Sound) :
    ((Session.changeWith f >>= next).run s).2.Sound := by
  cases hresult : f s.arena with
  | error failure =>
    have hrun : (Session.changeWith f).run s = (.error failure, s) := by
      have hlook : (Session.look f).run s = (.error failure, s) := by rw [run_look, hresult]
      rw [Session.changeWith, run_bind_error hlook]
    rw [run_bind_error hrun]
    exact h
  | ok result =>
    obtain ⟨r, b⟩ := result
    have hrun : (Session.changeWith f).run s = (.ok r, { s with arena := b }) := by
      have hlook : (Session.look f).run s = (.ok (r, b), s) := by rw [run_look, hresult]
      rw [Session.changeWith, run_bind_ok hlook]
      rfl
    rw [run_bind_ok hrun]
    exact hnext r b hresult (h.withArena (hf r b hresult).1 (hf r b hresult).2)

/-- A change that is always made. -/
theorem Sound.makeWith {f : Arena → α × Arena} {next : α → Work β} (h : s.Sound)
    (hf : (f s.arena).2.Sound ∧ s.arena.nodes.length ≤ (f s.arena).2.nodes.length)
    (hnext : ({ s with arena := (f s.arena).2 } : Session).Sound →
      ((next (f s.arena).1).run { s with arena := (f s.arena).2 }).2.Sound) :
    ((Session.changeWith (fun a => .ok (f a)) >>= next).run s).2.Sound := by
  refine h.changeWith (fun r b hresult => ?_) fun r b hresult hb => ?_
  · obtain rfl : (f s.arena).2 = b := congrArg Prod.snd (Except.ok.inj hresult)
    exact hf
  · obtain rfl : (f s.arena).1 = r := congrArg Prod.fst (Except.ok.inj hresult)
    obtain rfl : (f s.arena).2 = b := congrArg Prod.snd (Except.ok.inj hresult)
    exact hnext hb

theorem Sound.change {f : Arena → Except Failure Arena} (h : s.Sound)
    (hf : ∀ b, f s.arena = .ok b → b.Sound ∧ b.nodes.length = s.arena.nodes.length) :
    ((Session.change f).run s).2.Sound := by
  refine h.changeWith (fun r b hresult => ?_) fun _ _ _ hb => hb
  cases hfs : f s.arena with
  | error failure => rw [hfs] at hresult; cases hresult
  | ok b' =>
    rw [hfs] at hresult
    obtain rfl : b' = b := (Prod.mk.inj (Except.ok.inj hresult)).2
    exact ⟨(hf b' hfs).1, (hf b' hfs).2.ge⟩

/-- A name for something that is there. -/
theorem Sound.store {name : String} {x : Item} {next : Unit → Work β} (h : s.Sound)
    (hx : ∀ i, x = .node i → i < s.arena.nodes.length)
    (hnext : ∀ s', ((next ()).run s').2 = s') :
    ((Session.store name x >>= next).run s).2.Sound := by
  rw [Session.store, run_modify_bind, hnext]
  exact h.bind hx

/-- A question to the arena. -/
theorem Sound.ask {q : Arena.Asking α} (h : s.Sound)
    (hq : Arena.Recalled s.arena (q.run s.arena).2) : ((Session.ask q).run s).2.Sound :=
  h.withArena hq.sound hq.count.ge

/-! ## 4. Steps -/

/-- A node as it is made: by itself, without memory, and a leaf for good if it is one of a constant or a
variable. -/
structure New (n : Node) : Prop where
  children : n.children = []
  parent : n.parent = none
  forgotten : n.forgotten = n
  leaf : n.form ≠ .plain → n.symbol.most = 0

theorem new_ofSymbol (sym : Symbol) (value : Float) : New (Node.ofSymbol sym value) := by
  refine ⟨rfl, rfl, rfl, fun hform => sym.most_of_kind ?_⟩
  rw [Node.ofSymbol] at hform
  simp only at hform
  split at hform
  · next hconstant => rw [of_decide_eq_true hconstant]; rfl
  · split at hform
    · next hvariable => rw [of_decide_eq_true hvariable]; rfl
    · exact absurd rfl hform

theorem new_of_makePlain {sym? : Option Symbol} {n : Node} (h : Node.makePlain sym? = .ok n) :
    New n := by
  match sym? with
  | none => cases h
  | some sym =>
    obtain rfl := Except.ok.inj h
    exact ⟨rfl, rfl, rfl, fun hform => absurd rfl hform⟩

theorem new_of_makeConstant {sym : Symbol} {value : Float} {n : Node}
    (h : Node.makeConstant sym value = .ok n) : New n := by
  unfold Node.makeConstant at h
  split at h
  · next hconstant =>
    obtain rfl := Except.ok.inj h
    exact ⟨rfl, rfl, rfl, fun _ => sym.most_of_kind (by rw [of_decide_eq_true hconstant]; rfl)⟩
  · cases h

theorem new_of_makeVariable {sym : Symbol} {n : Node} (h : Node.makeVariable sym = .ok n) :
    New n := by
  unfold Node.makeVariable at h
  split at h
  · next hvariable =>
    obtain rfl := Except.ok.inj h
    exact ⟨rfl, rfl, rfl, fun _ => sym.most_of_kind (by rw [of_decide_eq_true hvariable]; rfl)⟩
  · cases h

theorem Sound.addNode {into : String} {n : Node} (h : s.Sound) (hn : New n) :
    ((Session.addNode into n).run s).2.Sound := by
  have hcount : (s.arena.allocate n).2.nodes.length = s.arena.nodes.length + 1 :=
    Arena.length_allocate n
  refine h.makeWith ⟨?_, hcount ▸ Nat.le_succ _⟩ fun hb => hb.store (fun j hj => ?_) fun _ => rfl
  · exact h.arena.allocate hn.children hn.parent hn.leaf hn.forgotten
  · obtain rfl := Item.node.inj hj
    exact hcount ▸ Nat.lt_succ_self _

theorem Sound.mayJoin {p c : NodeId} {r : Ref} (h : s.Sound) (hc : s.Means r c)
    (hallows : s.arena.parentOf c = none ∧ ¬ s.arena.links.Below c p) :
    s.arena.links.MayJoin s.arena.nodes.length p c :=
  ⟨h.means_lt hc, hallows.1, hallows.2⟩

/-- **A step that makes something or changes it keeps a session sound**, if it is allowed. -/
theorem Sound.performChange (h : s.Sound) : ∀ step : Step, s.Allows step →
    ((Session.performChange step).run s).2.Sound
  | .plain into name, _ => by
    refine h.after_reading reads_get fun _ _ => h.after_reading (reads_ofExcept _) fun n hn => ?_
    exact h.addNode (new_of_makePlain (Prod.mk.inj hn).1)
  | .constant into value name, _ => by
    refine h.after_reading (reads_symbol name) fun _ _ =>
      h.after_reading (reads_ofExcept _) fun n hn => ?_
    exact h.addNode (new_of_makeConstant (Prod.mk.inj hn).1)
  | .variable into name, _ => by
    refine h.after_reading (reads_symbol name) fun _ _ =>
      h.after_reading (reads_ofExcept _) fun n hn => ?_
    exact h.addNode (new_of_makeVariable (Prod.mk.inj hn).1)
  | .create into name draw, _ =>
    h.after_reading (reads_symbol name) fun sym _ => h.addNode (new_ofSymbol sym _)
  | .plant into r, hallows => by
    refine h.after_reading (reads_node? r) fun i? hi => ?_
    have hmeans := means_of_node? hi
    have hjoins : ∀ i, i? = some i → i < s.arena.nodes.length ∧ s.arena.parentOf i = none :=
      fun i hsome => ⟨h.means_lt (hmeans i hsome), hallows i (hmeans i hsome)⟩
    have hnew := h.arena.newTree hjoins
    exact h.makeWith ⟨hnew.1, hnew.2.ge⟩ fun hb => hb.store nofun fun _ => rfl
  | .load into data, _ => by
    refine h.after_reading reads_get fun g _ => h.after_reading (reads_ofExcept _) fun t ht => ?_
    have hplanted := h.arena.plant (Tree.made_of_read (Prod.mk.inj ht).1)
    exact h.makeWith ⟨hplanted.sound, hplanted.fresh.trans (Nat.le_of_lt hplanted.there)⟩
      fun hb => hb.store (fun j hj => Item.node.inj hj ▸ hplanted.there) fun _ => rfl
  | .add p c, hallows => by
    refine h.after_reading (reads_node p) fun i hi => h.after_reading (reads_node? c) fun c? hc => ?_
    have hmeans := means_of_node? hc
    exact h.change fun b hb => h.arena.addChild (fun j hj => h.mayJoin (hmeans j hj)
      (hallows i j (means_of_node hi) (hmeans j hj))) hb
  | .insert p index c, hallows => by
    refine h.after_reading (reads_node p) fun i hi => h.after_reading (reads_node? c) fun c? hc => ?_
    have hmeans := means_of_node? hc
    exact h.change fun b hb => h.arena.insertChild (fun j hj => h.mayJoin (hmeans j hj)
      (hallows i j (means_of_node hi) (hmeans j hj))) hb
  | .remove p index, _ => by
    refine h.after_reading (reads_node p) fun i _ => h.changeWith (fun c b hb => ?_) fun _ _ _ hb => hb
    exact ⟨(h.arena.removeChild hb).1, (h.arena.removeChild hb).2.ge⟩
  | .replace p index c, hallows => by
    refine h.after_reading (reads_node p) fun i hi => h.after_reading (reads_node? c) fun c? hc => ?_
    have hmeans := means_of_node? hc
    refine h.changeWith (fun old b hb => ?_) fun _ _ _ hb => hb
    have hreplaced := h.arena.replaceChild (fun j hj => h.mayJoin (hmeans j hj)
      (hallows i j (means_of_node hi) (hmeans j hj))) hb
    exact ⟨hreplaced.1, hreplaced.2.ge⟩
  | .change r name, hallows => by
    refine h.after_reading (reads_node r) fun i hi => h.after_reading (reads_symbol name) fun sym hsym => ?_
    exact h.change fun b hb => h.arena.changeSymbol (fun n hn hform =>
      hallows i n sym (means_of_node hi) hn hform (symbol?_of_symbol hsym)) hb
  | .setRoot t r, hallows => by
    refine h.after_reading (reads_tree t) fun u _ => h.after_reading (reads_node? r) fun i? hi => ?_
    have hmeans := means_of_node? hi
    exact h.change fun b hb => h.arena.setRoot (fun i hsome =>
      ⟨h.means_lt (hmeans i hsome), hallows i (hmeans i hsome)⟩) hb
  | .root t into, _ => by
    refine h.after_reading (reads_tree t) fun u _ => h.after_reading reads_get fun s' hs' => ?_
    obtain rfl : s = s' := Except.ok.inj (Prod.mk.inj hs').1
    refine h.store (fun i hi => ?_) fun _ => rfl
    cases hroot : s.arena.root? u with
    | none => rw [hroot] at hi; cases hi
    | some j =>
      rw [hroot] at hi
      obtain rfl := Item.node.inj hi
      exact h.arena.roots u j hroot
  | .replaceNode t old new, hallows => by
    refine h.after_reading (reads_tree t) fun u hu => h.after_reading (reads_node? old) fun old? hold =>
      h.after_reading (reads_node? new) fun new? hnew => ?_
    obtain ⟨name, hname, hvalue⟩ := name_of_tree hu
    have hmeans := means_of_node? hnew
    refine h.change fun b hb => h.arena.replaceNode (fun j hj => ?_) (fun c i p hc hi hroot hp => ?_) hb
    · exact ⟨h.means_lt (hmeans j hj), (hallows j (hmeans j hj)).1⟩
    · exact (hallows c (hmeans c hc)).2 name u i p hname hvalue (means_of_node? hold i hi)
        (fun heq => hroot (hi.trans heq.symm)) hp
  | .copy r into, _ => by
    refine h.after_reading (reads_item r) fun x hx => ?_
    rw [run_item] at hx
    cases x with
    | node i =>
      obtain ⟨hsound, hthere, hle⟩ := h.arena.copyNode (h.means_lt (means_of_item (Prod.mk.inj hx).1))
      exact h.makeWith ⟨hsound, hle⟩ fun hb =>
        hb.store (fun j hj => Item.node.inj hj ▸ hthere) fun _ => rfl
    | tree t =>
      exact h.makeWith (h.arena.copyTree t) fun hb => hb.store nofun fun _ => rfl
    | nothing => exact h
  | .child p index into, _ => by
    refine h.after_reading (reads_node p) fun i _ => h.after_reading (reads_look _) fun c hc => ?_
    refine h.store (fun j hj => ?_) fun _ => rfl
    obtain rfl := Item.node.inj hj
    exact h.arena.childOf_lt (Prod.mk.inj hc).1
  | .setValue r value, _ =>
    h.after_reading (reads_node r) fun i _ => h.change fun b hb =>
      Except.ok.inj hb ▸ h.arena.setValue value
  | .shake r draw factor, _ =>
    h.after_reading (reads_node r) fun i _ => h.after_reading (reads_look _) fun value _ =>
      h.change fun b hb => Except.ok.inj hb ▸ h.arena.setValue _
  | .resetValue r draw, _ =>
    h.after_reading (reads_node r) fun i _ => h.after_reading (reads_look _) fun _ _ =>
      h.after_reading (reads_look _) fun n _ =>
        h.change fun b hb => Except.ok.inj hb ▸ h.arena.setValue _
  | .check _, _ | .indexOf _ _, _ | .level _, _ | .parent _, _ | .children _, _ | .preorder _, _
  | .postorder _, _ | .length _, _ | .depth _, _ | .text _, _ | .describe _, _ | .document _, _
  | .leaf _, _ | .same _ _, _ | .value _, _ | .evaluate _ _ _, _ | .interpret _ _, _
  | .compile _, _ => h

theorem Sound.of_reads {w : Work α} (h : s.Sound) (hreads : Reads w) : (w.run s).2.Sound := by
  rw [hreads]
  exact h

/-- A question about something that a name stands for. -/
theorem Sound.ask_then {q : Arena.Asking α} {next : α → Work β} (h : s.Sound)
    (hq : Arena.Recalled s.arena (q.run s.arena).2) (hnext : ∀ a, Reads (next a)) :
    ((Session.ask q >>= next).run s).2.Sound := by
  have hasked := h.ask hq
  match hrun : (Session.ask q).run s with
  | (.ok a, s') =>
    rw [hrun] at hasked
    rw [run_bind_ok hrun]
    exact hasked.of_reads (hnext a)
  | (.error failure, s') =>
    rw [hrun] at hasked
    rw [run_bind_error hrun]
    exact hasked

/-- **A step keeps a session sound**, if it is allowed. -/
theorem Sound.perform (h : s.Sound) : ∀ step : Step, s.Allows step →
    ((Session.perform step).run s).2.Sound
  | .check r, _ => by
    refine h.of_reads (reads_bind (reads_top? r) fun i? => ?_)
    cases i? with
    | none => exact reads_pure _
    | some i => exact reads_bind (reads_look _) fun _ => reads_pure _
  | .indexOf p c, _ => h.of_reads (reads_bind (reads_node p) fun _ => reads_bind (reads_node? c) fun _ =>
    reads_bind reads_get fun _ => reads_pure _)
  | .level r, _ | .parent r, _ | .children r, _ | .leaf r, _ =>
    h.of_reads (reads_bind (reads_node r) fun _ => reads_bind reads_get fun _ => reads_pure _)
  | .preorder r, _ | .postorder r, _ => by
    refine h.of_reads (reads_bind (reads_top? r) fun i? => ?_)
    cases i? with
    | none => exact reads_pure _
    | some i => exact reads_bind (reads_look _) fun _ => reads_symbolNames _
  | .text r, _ =>
    h.of_reads (reads_bind (reads_item r) fun _ => reads_bind (reads_textOf _) fun _ => reads_pure _)
  | .same r q, _ =>
    h.of_reads (reads_bind (reads_item r) fun _ => reads_bind (reads_item q) fun _ => reads_pure _)
  | .value r, _ =>
    h.of_reads (reads_bind (reads_node r) fun _ => reads_bind (reads_look _) fun _ => reads_pure _)
  | .evaluate r _ _, _ =>
    h.of_reads (reads_bind (reads_node r) fun _ => reads_bind (reads_look _) fun _ =>
      reads_bind (reads_ofExcept _) fun _ => reads_bind (reads_ofExcept _) fun _ => reads_pure _)
  | .interpret r _, _ | .compile r, _ =>
    h.of_reads (reads_bind (reads_treeValue r) fun _ =>
      reads_bind (reads_ofExcept _) fun _ => reads_pure _)
  | .length r, _ => by
    refine h.after_reading (reads_item r) fun x hx => ?_
    rw [run_item] at hx
    cases x with
    | node i =>
      obtain ⟨b, hrun, hb⟩ := h.arena.askLength (h.means_lt (means_of_item (Prod.mk.inj hx).1))
      exact h.ask_then (by rwa [hrun]) fun _ => reads_pure _
    | tree t => exact h.ask_then (Arena.recalls_askTreeLength t _ h.arena) fun _ => reads_pure _
    | nothing => exact h
  | .depth r, _ => by
    refine h.after_reading (reads_item r) fun x hx => ?_
    rw [run_item] at hx
    cases x with
    | node i =>
      obtain ⟨d, b, hrun, -, hb⟩ := h.arena.askDepth (h.means_lt (means_of_item (Prod.mk.inj hx).1))
      exact h.ask_then (by rwa [hrun]) fun _ => reads_pure _
    | tree t => exact h.ask_then (Arena.recalls_askTreeDepth t _ h.arena) fun _ => reads_pure _
    | nothing => exact h
  | .describe r, _ => by
    refine h.after_reading (reads_item r) fun x _ => ?_
    cases x with
    | node i => exact h.of_reads (reads_bind (reads_look _) fun _ => reads_pure _)
    | tree t => exact h.ask_then (Arena.recalls_askDescription t _ h.arena) fun _ => reads_pure _
    | nothing => exact h
  | .document r, _ => by
    refine h.after_reading (reads_item r) fun x _ => ?_
    cases x with
    | node i => exact h.of_reads (reads_bind (reads_look _) fun _ => reads_pure _)
    | tree t => exact h.ask_then (Arena.recalls_askDocument t _ h.arena) fun _ => reads_pure _
    | nothing => exact h
  | .plain into name, hallows => h.performChange (.plain into name) hallows
  | .constant into value name, hallows => h.performChange (.constant into value name) hallows
  | .variable into name, hallows => h.performChange (.variable into name) hallows
  | .create into name draw, hallows => h.performChange (.create into name draw) hallows
  | .plant into r, hallows => h.performChange (.plant into r) hallows
  | .load into data, hallows => h.performChange (.load into data) hallows
  | .add p c, hallows => h.performChange (.add p c) hallows
  | .insert p index c, hallows => h.performChange (.insert p index c) hallows
  | .remove p index, hallows => h.performChange (.remove p index) hallows
  | .replace p index c, hallows => h.performChange (.replace p index c) hallows
  | .change r name, hallows => h.performChange (.change r name) hallows
  | .setRoot t r, hallows => h.performChange (.setRoot t r) hallows
  | .root t into, hallows => h.performChange (.root t into) hallows
  | .replaceNode t old new, hallows => h.performChange (.replaceNode t old new) hallows
  | .copy r into, hallows => h.performChange (.copy r into) hallows
  | .child p index into, hallows => h.performChange (.child p index into) hallows
  | .setValue r value, hallows => h.performChange (.setValue r value) hallows
  | .shake r draw factor, hallows => h.performChange (.shake r draw factor) hallows
  | .resetValue r draw, hallows => h.performChange (.resetValue r draw) hallows

/-! ## 5. Sessions -/

/-- **Every session that has only done what it may is sound.** -/
theorem sound_of_reached (h : s.Reached) : s.Sound := by
  induction h with
  | start g => exact ⟨Arena.sound_empty, nofun⟩
  | advance step _ hallows ih => exact ih.perform step hallows

/-- **Nodes hang together and answer with the truth**, whatever a session has done that only attaches
nodes where they may go.  A node has a parent exactly if that has it as a child, and then once; no node
is below itself; nothing that is remembered is false; and every node and every tree, asked at any time,
answers with the number of nodes below and including it and with its height. -/
theorem answers_of_reached (h : s.Reached) :
    (∀ p c, s.arena.parentOf c = some p ↔ c ∈ s.arena.childrenOf p) ∧
      (∀ p c, c ∈ s.arena.childrenOf p → (s.arena.childrenOf p).count c = 1) ∧
      (∀ i, ¬ Relation.TransGen s.arena.links.IsChild i i) ∧
      (∀ i n, s.arena.node? i = some n → n.Truthful s.arena.links i) ∧
      (∀ i, i < s.arena.nodes.length →
        (∃ a, (Arena.askLength i).run s.arena = (.ok (s.arena.links.size i), a)) ∧
          ∃ d a, (Arena.askDepth i).run s.arena = (.ok d, a) ∧ s.arena.links.IsHeight i d) ∧
      ∀ t, (∃ a, (Arena.askTreeLength t).run s.arena =
          (.ok ((s.arena.root? t).elim 0 s.arena.links.size), a)) ∧
        ∃ d a, (Arena.askTreeDepth t).run s.arena = (.ok d, a) ∧
          (s.arena.root? t).elim (d = 0) (s.arena.links.IsHeight · d) := by
  have harena := (sound_of_reached h).arena
  have hnode : ∀ i, i < s.arena.nodes.length →
      (∃ a, (Arena.askLength i).run s.arena = (.ok (s.arena.links.size i), a)) ∧
        ∃ d a, (Arena.askDepth i).run s.arena = (.ok d, a) ∧ s.arena.links.IsHeight i d := by
    intro i hi
    obtain ⟨a, hlength, -⟩ := harena.askLength hi
    obtain ⟨d, b, hdepth, hheight, -⟩ := harena.askDepth hi
    exact ⟨⟨a, hlength⟩, d, b, hdepth, hheight⟩
  refine ⟨harena.forest.parent_iff, fun p c hc => ?_, harena.forest.acyclic, harena.truthful, hnode,
    fun t => ?_⟩
  · exact List.count_eq_one_of_mem (harena.forest.once p) hc
  · rw [Arena.askTreeLength, Arena.askTreeDepth, run_get_bind, run_get_bind]
    cases hroot : s.arena.root? t with
    | none => exact ⟨⟨s.arena, rfl⟩, 0, s.arena, rfl, rfl⟩
    | some i => exact hnode i (harena.roots t i hroot)

/-- The session after some steps. -/
def after (g : Grammar) (steps : List Step) : Session :=
  steps.foldl (fun s step => (s.advance step).2) { grammar := g }

/-- A mean that is asked for its length and copied, and whose copy gets another child. -/
def copying : List Step :=
  [.plain "mean" "Mean", .constant "two" 2.0 "Constant", .constant "three" 3.0 "Constant",
    .add (some "mean") (some "two"), .length (some "mean"), .copy (some "mean") "copy",
    .add (some "copy") (some "three")]

/-- A node without children that has no parent may be attached to any other node. -/
theorem allows_add {p c : String} {i j : NodeId} (hp : s.names.value? p = some (.node i))
    (hc : s.names.value? c = some (.node j)) (hne : i ≠ j) (horphan : s.arena.parentOf j = none)
    (hleaf : s.arena.childrenOf j = []) : s.Allows (.add (some p) (some c)) := by
  rintro i' j' ⟨_, ⟨⟩, hi⟩ ⟨_, ⟨⟩, hj⟩
  obtain rfl := Item.node.inj (Option.some.inj (hp.symm.trans hi))
  obtain rfl := Item.node.inj (Option.some.inj (hc.symm.trans hj))
  refine ⟨horphan, fun hbelow => ?_⟩
  rcases Relation.ReflTransGen.cases_head hbelow with rfl | ⟨b, hb, -⟩
  · exact hne rfl
  · have hin : b ∈ s.arena.childrenOf j := hb
    rw [hleaf] at hin
    cases hin

/-- The mean that was asked still has two nodes, and its copy has three. -/
theorem answers_of_copying : (after .short copying).Reached ∧
    (after .short copying).arena.links.size 0 = 2 ∧ (after .short copying).arena.links.size 3 = 3 := by
  have hreached : (after .short copying).Reached := by
    refine .advance _ (.advance _ (.advance _ (.advance _ (.advance _ (.advance _ (.advance _
      (.start _) trivial) trivial) trivial) ?_) trivial) trivial) ?_
    · exact allows_add (i := 0) (j := 1) (by decide +kernel) (by decide +kernel) (by decide)
        (by decide +kernel) (by decide +kernel)
    · exact allows_add (i := 3) (j := 2) (by decide +kernel) (by decide +kernel) (by decide)
        (by decide +kernel) (by decide +kernel)
  have hsize : ∀ i k, i < (after .short copying).arena.nodes.length →
      ((Arena.askLength i).run (after .short copying).arena).1.toOption = some k →
      (after .short copying).arena.links.size i = k := by
    intro i k hi hk
    obtain ⟨a, hrun⟩ := ((answers_of_reached hreached).2.2.2.2.1 i hi).1
    rw [hrun] at hk
    exact Option.some.inj hk
  exact ⟨hreached, hsize 0 2 (by decide +kernel) (by decide +kernel),
    hsize 3 3 (by decide +kernel) (by decide +kernel)⟩

end Session
end FormulaEvolution
