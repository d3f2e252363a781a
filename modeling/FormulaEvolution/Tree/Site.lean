/-
# Places in a tree

A place is a path of child indices from the root.  A site is a place together with the subtree that
stands there; its level is the length of the path.

* `sites` lists all sites, each after those below it;
* `sitesAt` lists the sites of one level, from left to right;
* `replace` puts another tree at a place and leaves everything else alone.
-/
import FormulaEvolution.Tree.Basic

namespace FormulaEvolution

/-- Child indices from the root on. -/
abbrev Path := List Nat

/-- A place in a tree and the subtree that stands there. -/
structure Site where
  path : Path
  tree : Tree

/-- The number of edges between a site and the root. -/
def Site.level (s : Site) : Nat := s.path.length

/-- The same site seen from one level higher. -/
def Site.below (i : Nat) (s : Site) : Site := ⟨i :: s.path, s.tree⟩

/-- The sites one level below a site. -/
def Site.children (s : Site) : List Site :=
  s.tree.children.mapIdx fun i c => ⟨s.path ++ [i], c⟩

/-- Whether a place has subtrees below it. -/
def Site.isInner (s : Site) : Bool := !s.tree.isLeaf

@[simp] theorem Site.level_below (i : Nat) (s : Site) : (s.below i).level = s.level + 1 := by
  simp [Site.level, Site.below]

namespace Tree

/-! ## 1. Looking and replacing -/

/-- The subtree at a place. -/
def at? : Path → Tree → Option Tree
  | [], t => some t
  | i :: path, t => (t.children[i]?).bind (at? path)

/-- Put `new` at a place.  A place that the tree does not have changes nothing. -/
def replace (new : Tree) : Path → Tree → Tree
  | [], _ => new
  | i :: path, t => t.withChildren (t.children.modify i (replace new path))

/-- Put `new` at a place, which the tree must have. -/
def put (new : Tree) (path : Path) (t : Tree) : Except Failure Tree :=
  if (t.at? path).isSome then .ok (replace new path t) else .error (.invalid .foreignNode)

/-- The parent of a place, if it is not the root. -/
def parentPath? (path : Path) : Option Path := if path = [] then none else some path.dropLast

/-- Take the subtree at a place out of the children of its parent. -/
def erase : Path → Tree → Tree
  | [], t => t
  | [i], t => t.withChildren (t.children.eraseIdx i)
  | i :: path, t => t.withChildren (t.children.modify i (erase path))

/-- Take the subtree at a place out of the children of its parent, which must be able to spare
it. -/
def takeOut (path : Path) (t : Tree) : Except Failure Tree :=
  match (parentPath? path).bind (at? · t) with
  | none => .error .noSuchMember
  | some parent =>
    let s := parent.symbol
    let count := parent.children.length
    if (t.at? path).isNone then .error (.range (.subtree (-1) s.name))
    else if count - 1 < s.least then
      .error (.arity ⟨s.name, count, s.least, s.most, .tooFew (count - 1)⟩)
    else .ok (erase path t)

@[simp] theorem at?_nil (t : Tree) : t.at? [] = some t := rfl

@[simp] theorem replace_nil (new t : Tree) : replace new [] t = new := rfl

/-! ## 2. Sites -/

mutual

/-- All sites, each after those below it. -/
def sites : Tree → List Site
  | .constant s v => [⟨[], .constant s v⟩]
  | .variable s => [⟨[], .variable s⟩]
  | .node s cs => sitesFrom 0 cs ++ [⟨[], .node s cs⟩]

/-- The sites of children from an index on. -/
def sitesFrom (i : Nat) : List Tree → List Site
  | [] => []
  | c :: cs => (sites c).map (·.below i) ++ sitesFrom (i + 1) cs

end

/-- The sites of one level, from left to right. -/
def sitesAt : Nat → Tree → List Site
  | 0, t => [⟨[], t⟩]
  | level + 1, t => (sitesAt level t).flatMap Site.children

/-! ## 3. Facts -/

mutual

/-- The sites hold the subtrees, in the same order. -/
theorem map_tree_sites : ∀ t : Tree, t.sites.map (·.tree) = t.postorder
  | .constant .. => rfl
  | .variable _ => rfl
  | .node s cs => by
    simp only [sites, postorder, List.map_append, List.map_cons, List.map_nil,
      map_tree_sitesFrom 0 cs]

theorem map_tree_sitesFrom : ∀ (i : Nat) (cs : List Tree),
    (sitesFrom i cs).map (·.tree) = postorderAll cs
  | _, [] => rfl
  | i, c :: cs => by
    simp only [sitesFrom, postorderAll, List.map_append, List.map_map,
      map_tree_sitesFrom (i + 1) cs, ← map_tree_sites c]
    rfl

end

mutual

/-- There is one site for each node. -/
theorem length_sites : ∀ t : Tree, t.sites.length = t.length
  | .constant .. => rfl
  | .variable _ => rfl
  | .node s cs => by
    simp only [sites, length, List.length_append, List.length_cons, List.length_nil,
      length_sitesFrom 0 cs]
    omega

theorem length_sitesFrom : ∀ (i : Nat) (cs : List Tree),
    (sitesFrom i cs).length = totalLength cs
  | _, [] => rfl
  | i, c :: cs => by
    simp only [sitesFrom, totalLength, List.length_append, List.length_map,
      length_sites c, length_sitesFrom (i + 1) cs]

end

/-- Every tree has a site. -/
theorem sites_ne_nil (t : Tree) : t.sites ≠ [] := by
  intro h
  have := length_pos t
  rw [← length_sites, h] at this
  simp at this

end Tree
end FormulaEvolution
