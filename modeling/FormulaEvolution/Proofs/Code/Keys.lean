/-
# Trees under the keys of their variables

The text of a variable looks up the key of its name, in which single braces stand for doubled ones
(`Symbol.key?`).  So what is compiled for a tree is about another tree, which has every variable under
its key: `Tree.keyed`.  The two differ in nothing else, and not at all if no name has braces
(`Tree.keyed_eq_self`).
-/
import FormulaEvolution.Evaluation
import FormulaEvolution.Proofs.Text.Braces
import FormulaEvolution.Proofs.Tree.Replacement

namespace FormulaEvolution
namespace Tree

mutual

/-- The tree with every variable under its key.  A variable whose name has no key stays. -/
def keyed : Tree → Tree
  | .constant s value => .constant s value
  | .variable s => .variable (.forVariable ((Symbol.key? s.name).getD s.name))
  | .node s cs => .node s (keyedAll cs)

/-- Several trees with every variable under its key. -/
def keyedAll : List Tree → List Tree
  | [] => []
  | c :: cs => keyed c :: keyedAll cs

end

/-- Every variable has a key. -/
def HasKeys (t : Tree) : Prop := ∀ s, .variable s ∈ t.preorder → (Symbol.key? s.name).isSome = true

theorem keyedAll_eq_map : ∀ cs : List Tree, keyedAll cs = cs.map keyed
  | [] => rfl
  | c :: cs => by rw [keyedAll, keyedAll_eq_map cs, List.map_cons]

theorem length_keyedAll (cs : List Tree) : (keyedAll cs).length = cs.length := by
  rw [keyedAll_eq_map, List.length_map]

theorem children_keyed (t : Tree) : t.keyed.children = keyedAll t.children := by
  cases t <;> rw [keyed] <;> rfl

mutual

/-- The nodes are those of the tree, each with its variables under their keys. -/
theorem preorder_keyed : ∀ t : Tree, t.keyed.preorder = t.preorder.map keyed
  | .constant s value => by simp only [keyed, preorder, List.map_cons, List.map_nil]
  | .variable s => by simp only [keyed, preorder, List.map_cons, List.map_nil]
  | .node s cs => by
    rw [preorder, List.map_cons, ← preorderAll_keyedAll cs]
    simp only [keyed, preorder]

theorem preorderAll_keyedAll : ∀ cs : List Tree,
    preorderAll (keyedAll cs) = (preorderAll cs).map keyed
  | [] => by simp only [keyedAll, preorderAll, List.map_nil]
  | c :: cs => by
    simp only [keyedAll, preorderAll, List.map_append, preorder_keyed c, preorderAll_keyedAll cs]

end

/-- A node that is no variable gives the same value under keys. -/
theorem combine_keyed {t : Tree} (ht : ∀ s, t ≠ .variable s) (b : Bindings) (args : List Value) :
    combine b t.keyed args = combine b t args := by
  cases t with
  | constant s value => rfl
  | «variable» s => exact absurd rfl (ht s)
  | node s cs =>
    have hleaf : (Tree.node s (keyedAll cs)).isLeaf = (Tree.node s cs).isLeaf := by
      cases cs <;> rfl
    have hwhole : (Tree.node s (keyedAll cs)).isWhole = (Tree.node s cs).isWhole := by
      rw [isWhole, isWhole, hleaf]
      rfl
    have hnode : nodeValue b (.node s (keyedAll cs)) = nodeValue b (.node s cs) := rfl
    have hbyRow : nodeValueByRow b (.node s (keyedAll cs)) = nodeValueByRow b (.node s cs) := rfl
    rw [keyed, combine, combine, hwhole, hnode, hbyRow]

mutual

/-- **If no name has braces, the tree stays as it is.** -/
theorem keyed_eq_self : ∀ {t : Tree}, (∀ s, .variable s ∈ t.preorder →
    ∃ name, Text.Quoted.Plain name.toList ∧ s = .forVariable name) → t.keyed = t
  | .constant s value, _ => rfl
  | .variable s, h => by
    obtain ⟨name, hname, rfl⟩ := h s (by rw [preorder]; exact List.mem_singleton_self _)
    have hkey : Symbol.key? (Symbol.forVariable name).name = some name := Symbol.key?_plain hname
    rw [keyed, hkey, Option.getD_some]
  | .node s cs, h => by
    rw [keyed, keyedAll_eq_self fun u hu => h u (by rw [preorder]; exact List.mem_cons_of_mem _ hu)]

theorem keyedAll_eq_self : ∀ {cs : List Tree}, (∀ s, .variable s ∈ preorderAll cs →
    ∃ name, Text.Quoted.Plain name.toList ∧ s = .forVariable name) → keyedAll cs = cs
  | [], _ => rfl
  | c :: cs, h => by
    rw [keyedAll,
      keyed_eq_self fun u hu => h u (by rw [preorderAll]; exact List.mem_append_left _ hu),
      keyedAll_eq_self fun u hu => h u (by rw [preorderAll]; exact List.mem_append_right _ hu)]

end

end Tree
end FormulaEvolution
