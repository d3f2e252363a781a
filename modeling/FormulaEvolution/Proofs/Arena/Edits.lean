/-
# Edits, one assignment after the other

A change of an arena is told by its result, and one that is refused has none.  The calls behind them
assign to children, parents and memories one after the other, with their checks in between, so that a
check that came too late would leave half of a change behind.  No check does (`Edit.run_inSteps`): a call
that is performed assignment by assignment ends in the arena that the change gives, and in the one that
it began with if it is refused.

A step of a session that makes such a call is the call, or fails and leaves the session as it was
(`Session.edit_cases`).
-/
import FormulaEvolution.Proofs.Arena.Moves

namespace FormulaEvolution
namespace Arena

/-! ## 1. Calls -/

/-- A call that edits nodes or trees, with whatever nodes and whatever index. -/
inductive Edit where
  | add (p : NodeId) (c : Option NodeId)
  | insert (p : NodeId) (index : Int) (c : Option NodeId)
  | remove (p : NodeId) (index : Int)
  | replace (p : NodeId) (index : Int) (c : Option NodeId)
  | change (i : NodeId) (s : Symbol)
  | setRoot (t : TreeId) (i : Option NodeId)
  | replaceNode (t : TreeId) (old new : Option NodeId)

namespace Edit

/-- What a call comes to, at once. -/
def apply (a : Arena) : Edit → Except Failure Arena
  | .add p c => a.addChild p c
  | .insert p index c => a.insertChild p index c
  | .remove p index => (a.removeChild p index).map (·.2)
  | .replace p index c => (a.replaceChild p index c).map (·.2)
  | .change i s => a.changeSymbol i s
  | .setRoot t i => a.setRoot t i
  | .replaceNode t old new => a.replaceNode t old new

/-- Forget what a node remembers, and go on with its parent. -/
def forgetFrom : Nat → Option NodeId → Asking Unit
  | 0, _ => pure ()
  | _ + 1, none => pure ()
  | bound + 1, some i => do
    modify (·.alter i Node.forgotten)
    forgetFrom bound ((← get).parentOf i)

/-- Forget from a node upwards. -/
def forget (i : NodeId) : Asking Unit := do forgetFrom ((← get).nodes.length + 1) (some i)

def insertInSteps (p : NodeId) (index : Int) (c? : Option NodeId) : Asking Unit := do
  let n ← (← get).expect p
  match c? with
  | none => throw (.invalid .addMissing)
  | some c =>
    let count := n.children.length
    if n.symbol.most < count + 1 then
      throw (.arity ⟨n.symbol.name, count, n.symbol.least, n.symbol.most, .tooMany (count + 1)⟩)
    else do
      modify (·.setChildren p (n.children.insertIdx (insertPosition count index) c))
      modify (·.setParent c (some p))
      forget p

def removeInSteps (p : NodeId) (index : Int) : Asking Unit := do
  let n ← (← get).expect p
  let c ← childAt n index
  let count := n.children.length
  if count - 1 < n.symbol.least then
    throw (.arity ⟨n.symbol.name, count, n.symbol.least, n.symbol.most, .tooFew (count - 1)⟩)
  else do
    modify (·.setChildren p (n.children.eraseIdx index.toNat))
    modify (·.setParent c none)
    forget p

def replaceInSteps (p : NodeId) (index : Int) (c? : Option NodeId) : Asking Unit := do
  let n ← (← get).expect p
  match c? with
  | none => throw (.invalid .replaceByMissing)
  | some c =>
    let old ← childAt n index
    modify (·.setParent old none)
    modify (·.setChildren p (n.children.set index.toNat c))
    modify (·.setParent c (some p))
    forget p

def setRootInSteps (t : TreeId) (i? : Option NodeId) : Asking Unit := do
  match i? with
  | none => throw (.invalid .missingRoot)
  | some i =>
    modify (·.setParent i none)
    modify fun a => { a with roots := a.roots.set t (some i) }

def replaceNodeInSteps (t : TreeId) (old new : Option NodeId) : Asking Unit := do
  let a ← get
  if old = a.root? t then setRootInSteps t new
  else
    match old with
    | none => throw .noSuchMember
    | some old =>
      match (a.parentOf old).bind fun p => (a.indexOfChild? p old).map fun index => (p, index) with
      | none => throw (.invalid .foreignNode)
      | some (p, index) => replaceInSteps p index new

/-- A call, assignment by assignment, with its checks where they stand. -/
def inSteps : Edit → Asking Unit
  | .add p c => do
    let n ← (← get).expect p
    insertInSteps p n.children.length c
  | .insert p index c => insertInSteps p index c
  | .remove p index => removeInSteps p index
  | .replace p index c => replaceInSteps p index c
  | .change i s => do
    let n ← (← get).expect i
    if s.accepts n.children.length then modify (·.alter i fun n => { n with symbol := s })
    else throw (.arity (Tree.arityFault s n.children.length))
  | .setRoot t i => setRootInSteps t i
  | .replaceNode t old new => replaceNodeInSteps t old new

/-! ## 2. What they come to -/

/-- Assignments come to a result: they end there, or where they began if there is none. -/
def ComesTo (w : Asking Unit) (a : Arena) (result : Except Failure Arena) : Prop :=
  w.run a = match result with
    | .ok b => (.ok (), b)
    | .error failure => (.error failure, a)

variable {a : Arena} {α : Type}

/-- A check comes before what is done after it. -/
theorem comesTo_check {x : Except Failure α} {next : α → Asking Unit} {f : α → Except Failure Arena}
    (h : ∀ v, x = .ok v → ComesTo (next v) a (f v)) : ComesTo (liftM x >>= next) a (x >>= f) := by
  cases x with
  | error failure => rfl
  | ok v => exact h v rfl

theorem comesTo_expect {i : NodeId} {next : Node → Asking Unit} {f : Node → Except Failure Arena}
    (h : ∀ n, ComesTo (next n) a (f n)) :
    ComesTo (get >>= fun a => liftM (a.expect i) >>= next) a (a.expect i >>= f) :=
  comesTo_check (x := a.expect i) fun n _ => h n

theorem map_bind {β γ : Type} {x : Except Failure α} {f : α → Except Failure β} {g : β → γ} :
    (x >>= f).map g = x >>= fun v => (f v).map g := by
  cases x <;> rfl

theorem comesTo_ite {c : Prop} [Decidable c] {w w' : Asking Unit} {r r' : Except Failure Arena}
    (h : c → ComesTo w a r) (h' : ¬c → ComesTo w' a r') :
    ComesTo (if c then w else w') a (if c then r else r') := by
  split
  · next hc => exact h hc
  · next hc => exact h' hc

theorem comesTo_throw (failure : Failure) : ComesTo (throw failure) a (.error failure) := rfl

theorem chain_alter_forgotten (i : NodeId) : ∀ (bound : Nat) (p : NodeId),
    (a.alter i Node.forgotten).chain bound p = a.chain bound p
  | 0, _ => rfl
  | bound + 1, p => by
    have hlinks : (a.alter i Node.forgotten).links = a.links := links_alter fun _ _ => ⟨rfl, rfl⟩
    have hparent : (a.alter i Node.forgotten).parentOf p = a.parentOf p :=
      congrFun (congrArg Links.parent hlinks) p
    rw [chain, chain, hparent]
    cases a.parentOf p with
    | none => rfl
    | some q => exact congrArg (p :: ·) (chain_alter_forgotten i bound q)

/-- **Going upwards and forgetting on the way** is forgetting at all nodes above.  Forgetting changes no
parent, so that the way is the one that there was. -/
theorem run_forgetFrom : ∀ (bound : Nat) (p : NodeId) (a : Arena),
    (forgetFrom bound (some p)).run a = (.ok (), a.forgetAll (a.chain bound p))
  | 0, _, _ => rfl
  | bound + 1, p, a => by
    have hlinks : (a.alter p Node.forgotten).links = a.links := links_alter fun _ _ => ⟨rfl, rfl⟩
    have hparent : (a.alter p Node.forgotten).parentOf p = a.parentOf p :=
      congrFun (congrArg Links.parent hlinks) p
    rw [forgetFrom, run_modify_bind, run_get_bind, hparent, chain]
    cases a.parentOf p with
    | none => cases bound <;> rfl
    | some q =>
      rw [run_forgetFrom bound q, chain_alter_forgotten]
      rfl

theorem run_forget (p : NodeId) (a : Arena) : (forget p).run a = (.ok (), a.forgetUpward p) :=
  run_forgetFrom _ p a

theorem comesTo_insert (p : NodeId) (index : Int) (c? : Option NodeId) :
    ComesTo (insertInSteps p index c?) a (a.insertChild p index c?) := by
  refine comesTo_expect fun n => ?_
  match c? with
  | none => exact comesTo_throw _
  | some c => exact comesTo_ite (fun _ => comesTo_throw _) fun _ => run_forget p _

theorem comesTo_remove (p : NodeId) (index : Int) :
    ComesTo (removeInSteps p index) a ((a.removeChild p index).map (·.2)) := by
  rw [removeChild, map_bind]
  refine comesTo_expect fun n => ?_
  rw [map_bind]
  refine comesTo_check fun c _ => ?_
  simp only [apply_ite (Except.map _)]
  exact comesTo_ite (fun _ => comesTo_throw _) fun _ => run_forget p _

theorem comesTo_replace (p : NodeId) (index : Int) (c? : Option NodeId) :
    ComesTo (replaceInSteps p index c?) a ((a.replaceChild p index c?).map (·.2)) := by
  rw [replaceChild, map_bind]
  refine comesTo_expect fun n => ?_
  match c? with
  | none => exact comesTo_throw _
  | some c =>
    simp only [map_bind]
    exact comesTo_check fun old _ => run_forget p _

theorem comesTo_setRoot (t : TreeId) (i? : Option NodeId) :
    ComesTo (setRootInSteps t i?) a (a.setRoot t i?) := by
  match i? with
  | none => exact comesTo_throw _
  | some i => rfl

theorem comesTo_replaceNode (t : TreeId) (old new : Option NodeId) :
    ComesTo (replaceNodeInSteps t old new) a (a.replaceNode t old new) := by
  refine comesTo_ite (fun _ => comesTo_setRoot t new) fun _ => ?_
  match old with
  | none => exact comesTo_throw _
  | some i =>
    simp only
    generalize ((a.parentOf i).bind fun p => (a.indexOfChild? p i).map fun index => (p, index)) = place
    cases place with
    | none => exact comesTo_throw _
    | some place => exact comesTo_replace place.1 place.2 new

/-- **A call, assignment by assignment, comes to what it does at once**, and where it is refused nothing
has been assigned. -/
theorem run_inSteps (e : Edit) (a : Arena) : e.inSteps.run a =
    match e.apply a with
    | .ok b => (.ok (), b)
    | .error failure => (.error failure, a) := by
  cases e with
  | add p c => exact comesTo_expect fun n => comesTo_insert p n.children.length c
  | insert p index c => exact comesTo_insert p index c
  | remove p index => exact comesTo_remove p index
  | replace p index c => exact comesTo_replace p index c
  | change i s =>
    exact comesTo_expect fun n => comesTo_ite (fun _ => rfl) fun _ => comesTo_throw _
  | setRoot t i => exact comesTo_setRoot t i
  | replaceNode t old new => exact comesTo_replaceNode t old new

/-- **A call that is refused changes nothing**, and so none of what a node has or remembers and no root. -/
theorem unchanged_of_error {e : Edit} {a b : Arena} {failure : Failure}
    (h : e.inSteps.run a = (.error failure, b)) : b = a := by
  rw [run_inSteps] at h
  cases happly : e.apply a with
  | ok d => rw [happly] at h; cases h
  | error _ => rw [happly] at h; exact (Prod.mk.inj h).2.symm

end Edit
end Arena

/-! ## 3. Steps that are calls -/

namespace Session

open Arena

/-- Steps that edit nodes or trees. -/
def Step.isEdit : Step → Bool
  | .add .. | .insert .. | .remove .. | .replace .. | .change .. | .setRoot .. | .replaceNode .. => true
  | _ => false

/-- Work fails and leaves the session as it was, or is a call. -/
def Edits (s : Session) (w : Work Reply) : Prop :=
  (∃ failure, w.run s = (.error failure, s)) ∨
    ∃ (e : Edit) (b : Arena) (reply : Reply), e.inSteps.run s.arena = (.ok (), b) ∧
      w.run s = (.ok reply, { s with arena := b })

variable {α : Type} {s : Session}

theorem edits_reading {first : Work α} {next : α → Work Reply} (hread : Reads first)
    (hnext : ∀ x, first.run s = (.ok x, s) → Edits s (next x)) : Edits s (first >>= next) := by
  have hsame := hread s
  rw [Edits, run_bind]
  rcases hrun : first.run s with ⟨failure | x, s'⟩
  · rw [hrun] at hsame
    exact .inl ⟨failure, by rw [← hsame]⟩
  · rw [hrun] at hsame
    obtain rfl : s' = s := hsame
    exact hnext x hrun

/-- A call by which the arena is changed, and a reply. -/
theorem edits_changeWith {f : Arena → Except Failure (α × Arena)} {next : α → Work Reply} (e : Edit)
    (hf : ∀ a, e.apply a = (f a).map (·.2))
    (hnext : ∀ x s', ∃ reply, (next x).run s' = (.ok reply, s')) :
    Edits s (Session.changeWith f >>= next) := by
  have hcall := e.run_inSteps s.arena
  rw [hf] at hcall
  cases hresult : f s.arena with
  | error failure =>
    have hlook : (look f).run s = (.error failure, s) := by rw [run_look, hresult]
    refine .inl ⟨failure, ?_⟩
    rw [run_bind_error (by rw [Session.changeWith, run_bind_error hlook])]
  | ok result =>
    obtain ⟨x, b⟩ := result
    rw [hresult] at hcall
    have hlook : (look f).run s = (.ok (x, b), s) := by rw [run_look, hresult]
    obtain ⟨reply, hreply⟩ := hnext x { s with arena := b }
    refine .inr ⟨e, b, reply, hcall, ?_⟩
    have hrun : (Session.changeWith f).run s = (.ok x, { s with arena := b }) := by
      rw [Session.changeWith, run_bind_ok hlook]
      rfl
    rw [run_bind_ok hrun, hreply]

theorem edits_change {f : Arena → Except Failure Arena} (e : Edit) (hf : ∀ a, e.apply a = f a) :
    Edits s (Session.change f) :=
  edits_changeWith e (fun a => by rw [hf]; cases f a <;> rfl) fun _ _ => ⟨.done, rfl⟩

/-- **A step that edits is a call, or fails and leaves the session as it was.** -/
theorem edit_cases (s : Session) : ∀ {step : Step}, step.isEdit = true →
    Edits s (perform step)
  | .add p c, _ => edits_reading (reads_node p) fun i _ => edits_reading (reads_node? c) fun c? _ =>
    edits_change (.add i c?) fun _ => rfl
  | .insert p index c, _ => edits_reading (reads_node p) fun i _ =>
    edits_reading (reads_node? c) fun c? _ => edits_change (.insert i index c?) fun _ => rfl
  | .remove p index, _ => edits_reading (reads_node p) fun i _ =>
    edits_changeWith (.remove i index) (fun _ => rfl) fun _ _ => ⟨_, rfl⟩
  | .replace p index c, _ => edits_reading (reads_node p) fun i _ =>
    edits_reading (reads_node? c) fun c? _ =>
      edits_changeWith (.replace i index c?) (fun _ => rfl) fun _ _ => ⟨_, rfl⟩
  | .change r name, _ => edits_reading (reads_node r) fun i _ =>
    edits_reading (reads_symbol name) fun sym _ => edits_change (.change i sym) fun _ => rfl
  | .setRoot t r, _ => edits_reading (reads_tree t) fun u _ => edits_reading (reads_node? r) fun i? _ =>
    edits_change (.setRoot u i?) fun _ => rfl
  | .replaceNode t old new, _ => edits_reading (reads_tree t) fun u _ =>
    edits_reading (reads_node? old) fun o _ => edits_reading (reads_node? new) fun n _ =>
      edits_change (.replaceNode u o n) fun _ => rfl

end Session
end FormulaEvolution
