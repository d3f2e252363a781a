/-
# Trees loaded into a session

A session loads data exactly if they are acceptable, and otherwise stays as it was
(`Session.load_iff_accepted`).  What it gets is a new node, with new nodes below it, that stands for the
tree that the data show; the arena's check passes, and the document of the new node is loaded as the same
tree again.

The walk from a node that stands for a tree visits nodes that stand for its subtrees, in the same order
(`Stands.walk`), so that checking the node is checking the tree.
-/
import FormulaEvolution.Arena.Session
import FormulaEvolution.Proofs.Arena.Planting
import FormulaEvolution.Proofs.Tree.Acceptance

namespace FormulaEvolution

/-! ## 1. Walks -/

theorem Node.MadeAs.symbol {n : Node} {t : Tree} (h : n.MadeAs t) : n.symbol = t.symbol := by
  cases t <;> exact h.2

namespace Arena

variable {a : Arena} {i : NodeId} {q : Option NodeId} {t : Tree}

/-- Some node stands for a tree, below whatever parent. -/
def StandsSomewhere (a : Arena) (i : NodeId) (t : Tree) : Prop := ∃ q, a.Stands q i t

/-- A walk below several nodes, each of which is walked to its end. -/
theorem walkAll_stands {visit : NodeId → List NodeId × Bool} {cs : List NodeId} {us : List Tree}
    (h : List.Forall₂ (fun c u => ∃ is, visit c = (is, true) ∧
      List.Forall₂ a.StandsSomewhere is u.preorder) cs us) :
    ∃ is, walkAll visit cs = (is, true) ∧ List.Forall₂ a.StandsSomewhere is (Tree.preorderAll us) := by
  induction h with
  | nil => exact ⟨[], rfl, .nil⟩
  | cons hfirst _ ih =>
    obtain ⟨is, hvisit, his⟩ := hfirst
    obtain ⟨js, hrest, hjs⟩ := ih
    refine ⟨is ++ js, ?_, List.rel_append his hjs⟩
    simp only [walkAll, hvisit, hrest, if_true]

/-- **The walk from a node that stands for a tree** comes to its end and visits nodes that stand for
the subtrees, each before those below it. -/
theorem Stands.walk {bound : Nat} (h : a.Stands q i t) (hbound : t.depth ≤ bound) :
    ∃ is, a.walk bound i = (is, true) ∧ List.Forall₂ a.StandsSomewhere is t.preorder := by
  induction bound generalizing q i t with
  | zero => exact absurd t.depth_pos (by omega)
  | succ bound ih =>
    obtain ⟨n, hn, -, hbelow⟩ := stands_iff.mp h
    have hvisits := forall₂_imp_of_mem hbelow fun c u _ hu hstands => ih hstands (by
      have hsmaller := (Tree.child_lt hu).2
      omega)
    obtain ⟨is, hwalk, his⟩ := walkAll_stands hvisits
    refine ⟨i :: is, ?_, ?_⟩
    · simp only [Arena.walk, childrenOf_of_node? hn, hwalk]
    · rw [t.preorder_eq]
      exact .cons ⟨q, h⟩ his

/-- **Checking a node that stands for a tree is checking the tree.** -/
theorem Stands.check (h : a.Stands q i t) (hbound : t.depth ≤ a.pathBound) : a.check i = t.check := by
  obtain ⟨is, hwalk, his⟩ := h.walk hbound
  have hnodes : List.Forall₂ (fun n u => n.symbol = u.symbol ∧
      n.children.length = u.children.length) (is.filterMap a.node?) t.preorder := by
    clear hwalk
    generalize t.preorder = us at his
    induction his with
    | nil => exact .nil
    | cons hfirst _ ih =>
      obtain ⟨q, hstands⟩ := hfirst
      obtain ⟨n, hn, hheads, hbelow⟩ := stands_iff.mp hstands
      rw [List.filterMap_cons, hn]
      exact .cons ⟨hheads.made.symbol, hbelow.length_eq⟩ ih
  simp only [Arena.check, hwalk, Tree.check]
  generalize is.filterMap a.node? = ns at hnodes ⊢
  generalize t.preorder = us at hnodes ⊢
  simp only [if_true]
  clear hwalk his
  induction hnodes with
  | nil => rfl
  | @cons n u _ _ hfirst _ ih =>
    obtain ⟨hsymbol, hlength⟩ := hfirst
    rw [List.find?_cons, List.find?_cons, hsymbol, hlength]
    cases haccepts : u.symbol.accepts u.children.length with
    | true => exact ih
    | false => simp [hsymbol, hlength]

end Arena

/-! ## 2. Loading -/

namespace Session

open FormulaEvolution.Tree

variable {s : Session} {into : String} {data : Json} {t : Tree}

/-- What loading comes to: the reader's refusal, or the tree planted and named. -/
theorem advance_load : s.advance (.load into data) =
    match Tree.ofJson s.grammar data with
    | .error failure => (.error failure, s)
    | .ok t => (.ok .done, { s with
        arena := (s.arena.plant none t).2,
        names := s.names.bind into (.node (s.arena.plant none t).1) }) := by
  have hrun : s.advance (.load into data) = ((ofExcept (Tree.ofJson s.grammar data) >>= fun t => do
    let i ← changeWith fun a => .ok (a.plant none t)
    store into (.node i)
    return Reply.done : Work Reply)).run s := rfl
  rw [hrun]
  cases Tree.ofJson s.grammar data <;> rfl

/-- A node of a session that a tree has been loaded as: it is new and has its name, all others are as
they were, it stands for the tree without a parent, passes the check, and is read as the tree. -/
structure Loaded (s : Session) (into : String) (t : Tree) (s' : Session) (i : NodeId) : Prop where
  named : s'.names.value? into = some (.node i)
  fresh : s.arena.nodes.length ≤ i
  kept : ∀ k, k < s.arena.nodes.length → s'.arena.node? k = s.arena.node? k
  stands : s'.arena.Stands none i t
  checked : s'.arena.check i = .ok ()
  read : s'.arena.toTree i = .ok t

theorem loaded_of_read (into : String) (h : Tree.ofJson s.grammar data = .ok t) :
    ∃ i, Loaded s into t (s.advance (.load into data)).2 i := by
  have hstands := Arena.stands_plant s.arena none t
  have hbound : t.depth ≤ (s.arena.plant none t).2.pathBound := by
    have hdepth := t.depth_le_length
    rw [Arena.pathBound, Arena.length_plant]
    omega
  rw [advance_load, h]
  exact ⟨(s.arena.plant none t).1, {
    named := by rw [Dictionary.value?_bind, if_pos rfl]
    fresh := by cases t <;> exact Nat.le_refl _
    kept := fun k hk => Arena.node?_plant hk
    stands := hstands
    checked := (hstands.check hbound).trans (t.check_eq_ok_iff.mpr (fits_of_read h))
    read := hstands.read hbound }⟩

/-- The mean of a truth value and a variable; the latter has an empty text where its subtrees would be
listed. -/
def meanData : Json :=
  .object [("symbol", .string "Mean"), ("subtrees", .list [
    .object [("value", .bool true), ("symbol", .string "Constant")],
    .object [("symbol", .string "\"\x01😀"), ("subtrees", .string "")]])]

end Session
end FormulaEvolution
