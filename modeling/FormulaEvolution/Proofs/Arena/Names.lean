/-
# Names lead somewhere

A session never forgets a node or a tree, and gives names only to what is there: to a node or a tree that
has just been made, to the root of a tree and to the child of a node.  So all links, roots and names lead
to something, whatever a session has done (`Session.closed_after`).
-/
import FormulaEvolution.Proofs.Arena.Guards

namespace FormulaEvolution
namespace Session

open Arena

variable {X : NodeId → Prop} {T : TreeId → Prop} {s : Session}

/-! ## 1. What there is -/

/-- What a name stands for is there. -/
def There (a : Arena) : Item → Prop
  | .node i => i < a.nodes.length
  | .tree t => t < a.roots.length
  | .nothing => True

theorem There.later {a b : Arena} {x : Item} (h : There a x) (hlasts : Lasts X T a b) : There b x := by
  cases x with
  | node i => exact Nat.lt_of_lt_of_le h hlasts.nodes
  | tree t => exact Nat.lt_of_lt_of_le h hlasts.trees
  | nothing => trivial

/-- Links, roots and names lead to what is there. -/
structure Closed (s : Session) : Prop where
  arena : s.arena.Closed
  named : ∀ name x, s.names.value? name = some x → There s.arena x

/-! ## 2. Steps -/

/-- A step gives no name, or one name to something that is there. -/
def Names (s s' : Session) : Prop := s'.names = s.names ∨ ∃ into x,
  s'.names = s.names.bind into x ∧ There s'.arena x

theorem names_store {s s' : Session} {into : String} {x : Item} {reply : Reply}
    (hnames : s'.names = s.names) (hx : There s'.arena x) :
    Leads s' (Names s) (store into x >>= fun _ => pure reply) :=
  .inr ⟨into, x, congrArg (·.bind into x) hnames, hx⟩

theorem there_allocateTree (a : Arena) (r : Option NodeId) :
    There (a.allocateTree r).2 (.tree (a.allocateTree r).1) := by
  rw [There, allocateTree, List.length_append]
  exact Nat.lt_succ_self _

theorem names_addNode (into : String) (n : Node) : Leads s (Names s) (addNode into n) := by
  refine leads_makeWith (names_store rfl ?_)
  rw [There, fst_allocate, length_allocate]
  exact Nat.lt_succ_self _

theorem Closed.lt_of_item {r : Ref} {i : NodeId} (h : s.Closed) (hr : s.itemOf r = .ok (.node i)) :
    i < s.arena.nodes.length := by
  obtain ⟨name, -, hname⟩ := means_of_item hr
  exact h.named name _ hname

theorem childOf_mem {a : Arena} {p c : NodeId} {index : Int} (h : a.childOf p index = .ok c) :
    ∃ n, a.node? p = some n ∧ c ∈ n.children := by
  unfold childOf at h
  obtain ⟨n, hexpect, h⟩ := Except.bind_ok h
  refine ⟨n, node?_of_expect hexpect, ?_⟩
  simp only at h
  generalize (if index < 0 then (n.children.length : Int) + index else index) = place at h
  split at h
  · next d hd =>
    obtain rfl := Except.ok.inj h
    split at hd
    · cases hd
    · exact List.mem_of_getElem? hd
  · cases h

/-- **What a step gives a name to is there.** -/
theorem names_advance (h : s.Closed) (step : Step) : Names s (s.advance step).2 := by
  have hsame : Names s s := .inl rfl
  change Leads s (Names s) (perform step)
  by_cases hlooks : step.looks = true
  · exact leads_reads hsame (reads_of_looks hlooks)
  by_cases hedit : step.isEdit = true
  · rcases edit_cases s hedit with ⟨failure, hrun⟩ | ⟨e, b, reply, -, hrun⟩
    · rw [Leads, hrun]
      exact hsame
    · rw [Leads, hrun]
      exact .inl rfl
  cases step with
  | plain into name =>
    exact leads_reading hsame reads_get fun _ _ => leads_reading hsame (reads_ofExcept _) fun n _ =>
      names_addNode into n
  | constant into value name | «variable» into name =>
    exact leads_reading hsame (reads_symbol name) fun _ _ => leads_reading hsame (reads_ofExcept _)
      fun n _ => names_addNode into n
  | create into name draw =>
    exact leads_reading hsame (reads_symbol name) fun _ _ => names_addNode into _
  | plant into r =>
    refine leads_reading hsame (reads_node? r) fun i? _ => leads_makeWith (names_store rfl ?_)
    cases i? <;> exact there_allocateTree _ _
  | load into data =>
    refine leads_reading hsame reads_get fun _ _ => leads_reading hsame (reads_ofExcept _) fun t _ =>
      leads_makeWith (names_store rfl ?_)
    rw [There, length_plant]
    cases t <;> exact Nat.lt_add_of_pos_right (Tree.length_pos _)
  | root t into =>
    refine leads_reading hsame (reads_tree t) fun u _ => leads_reading hsame reads_get fun s' hs' => ?_
    obtain rfl : s = s' := Except.ok.inj (Prod.mk.inj hs').1
    refine names_store rfl ?_
    cases hroot : s.arena.root? u with
    | none => trivial
    | some j => exact h.arena.roots u j hroot
  | copy r into =>
    refine leads_reading hsame (reads_item r) fun x hx => ?_
    cases x with
    | node i =>
      refine leads_makeWith (names_store rfl ?_)
      rw [There]
      rcases fst_copyNode (a := s.arena) i with hfst | ⟨hfst, hlt⟩
      · rw [hfst]
        exact (h.lt_of_item (itemOf_of_item hx)).trans_le (length_copyNode_le s.arena i)
      · rwa [hfst]
    | tree t =>
      refine leads_makeWith (names_store rfl ?_)
      cases hroot : s.arena.root? t with
      | none =>
        rw [copyTree, hroot]
        exact there_allocateTree _ _
      | some i =>
        rw [copyTree_of_root hroot]
        exact there_allocateTree _ _
    | nothing => exact hsame
  | child p index into =>
    refine leads_reading hsame (reads_node p) fun i _ => leads_reading hsame (reads_look _) fun c hc =>
      names_store rfl ?_
    obtain ⟨n, hn, hchild⟩ := childOf_mem (Prod.mk.inj hc).1
    exact Nat.lt_of_not_le ((h.arena.shut i n (Nat.not_le.mpr (node?_lt hn)) hn).children c hchild)
  | setValue r value =>
    exact leads_reading hsame (reads_node r) fun _ _ => leads_change hsame fun _ _ => .inl rfl
  | shake r draw factor =>
    exact leads_reading hsame (reads_node r) fun _ _ => leads_reading hsame (reads_look _) fun _ _ =>
      leads_change hsame fun _ _ => .inl rfl
  | resetValue r draw =>
    exact leads_reading hsame (reads_node r) fun _ _ => leads_reading hsame (reads_look _) fun _ _ =>
      leads_reading hsame (reads_look _) fun _ _ => leads_change hsame fun _ _ => .inl rfl
  | length r | depth r | describe r | document r =>
    refine leads_reading hsame (reads_item r) fun x _ => ?_
    cases x with
    | node i =>
      first
      | exact leads_ask (.inl rfl) fun _ => reads_pure _
      | exact leads_reads hsame (reads_bind (reads_look _) fun _ => reads_pure _)
    | tree t => exact leads_ask (.inl rfl) fun _ => reads_pure _
    | nothing => exact hsame
  | _ => first | exact absurd rfl hlooks | exact absurd rfl hedit

/-- **A step keeps a session closed.** -/
theorem closed_advance (h : s.Closed) (step : Step) : (s.advance step).2.Closed := by
  have hlasts : Lasts (fun _ => False) (fun _ => False) s.arena (s.advance step).2.arena :=
    (moved_advance (fun _ _ _ _ => ⟨fun _ _ => not_false, fun _ _ => not_false⟩) (fun _ _ => not_false)
      fun _ _ => not_false).lasts
  have hthere : ∀ i, s.Touches step i → ¬(s.advance step).2.arena.nodes.length ≤ i := by
    rintro i ⟨r, -, hitem | ⟨t, -, hroot⟩⟩
    · exact Nat.not_le.mpr ((h.lt_of_item hitem).trans_le hlasts.nodes)
    · exact Nat.not_le.mpr ((h.arena.roots t i hroot).trans_le hlasts.nodes)
  have hmoved : Moved ((s.advance step).2.arena.nodes.length ≤ ·) (fun _ => False) s.arena
      (s.advance step).2.arena :=
    moved_advance (h.arena.shut_of_le hlasts.nodes) hthere fun _ _ => not_false
  refine ⟨hmoved.closed h.arena, fun name x hx => ?_⟩
  rcases names_advance h step with hsame | ⟨into, y, hbind, hy⟩
  · rw [hsame] at hx
    exact (h.named name x hx).later hlasts
  · rw [hbind, Dictionary.value?_bind] at hx
    split at hx
    · exact Option.some.inj hx ▸ hy
    · exact (h.named name x hx).later hlasts

theorem Closed.through (h : s.Closed) (steps : List Step) : (s.through steps).Closed := by
  induction steps generalizing s with
  | nil => exact h
  | cons step steps ih => exact ih (closed_advance h step)

/-- **Links, roots and names lead to what is there**, whatever a session has done. -/
theorem closed_after (g : Grammar) (steps : List Step) : (after g steps).Closed := by
  have hstart : Closed { grammar := g } := ⟨.of_empty, fun name x hx => by cases hx⟩
  exact hstart.through steps

end Session
end FormulaEvolution
