/-
# Trees with other subtrees at some places

`Tree.Grafted grafts t t'` says that `t'` is `t` with other subtrees at some places, none of which is
below another one.  Each graft stands at its place, and every place that is not below a graft has the
same node by itself, with as many children, in both trees.  This says all there is to say: the grafts
determine the tree (`Grafted.unique`).

A replacement puts one graft (`grafted_replace`).  In a tree that has grafts already, a replacement at a
place that is not below any of them adds one, and those that were below the place go with what stood
there (`Grafted.replace`).  This is how several replacements, some of which undo others, come down to
grafts that are apart.
-/
import FormulaEvolution.Proofs.Tree.Replacement

namespace FormulaEvolution
namespace Tree

/-! ## 1. Nodes by themselves -/

/-- The top of a tree by itself: the node without its subtrees, and how many there are. -/
def top (t : Tree) : Tree × Nat := (t.withChildren [], t.children.length)

/-- A tree is its top and its subtrees. -/
theorem withChildren_top (t : Tree) : t.top.1.withChildren t.children = t := by
  cases t <;> rfl

/-- What a condition on a node sees of it is its top. -/
theorem condition_of_top {P : NodeCondition} {t u : Tree} (h : t.top = u.top)
    (hu : P u.kind? u.symbol u.children.length) : P t.kind? t.symbol t.children.length := by
  have hseen : ∀ v : Tree, v.top.1.kind? = v.kind? ∧ v.top.1.symbol = v.symbol := by
    intro v
    cases v <;> exact ⟨rfl, rfl⟩
  obtain ⟨hkind, hsymbol⟩ := hseen t
  have hcount : t.children.length = u.children.length := congrArg Prod.snd h
  rwa [← hkind, ← hsymbol, hcount, h, (hseen u).1, (hseen u).2]

/-- Trees with the same top have the same symbol. -/
theorem symbol_of_top {t u : Tree} (h : t.top = u.top) : t.symbol = u.symbol :=
  condition_of_top (P := fun _ s _ => s = u.symbol) h rfl

theorem sizeOf_lt_of_mem_children {t c : Tree} (h : c ∈ t.children) : sizeOf c < sizeOf t := by
  cases t with
  | node s cs =>
    have hc : sizeOf c < sizeOf cs := List.sizeOf_lt_of_mem h
    rw [node.sizeOf_spec]
    omega
  | _ => cases h

/-- **Trees with the same nodes at all places are the same.** -/
theorem eq_of_tops {t u : Tree} (h : ∀ p, (t.at? p).map top = (u.at? p).map top) : t = u := by
  have htop : t.top = u.top := Option.some.inj (h [])
  have hlength : t.children.length = u.children.length := congrArg Prod.snd htop
  have hchildren : t.children = u.children := by
    refine List.ext_getElem hlength fun i hi hi' => ?_
    have hsmaller := sizeOf_lt_of_mem_children (List.getElem_mem hi)
    refine eq_of_tops fun p => ?_
    have := h (i :: p)
    simpa only [at?, List.getElem?_eq_getElem hi, List.getElem?_eq_getElem hi', Option.bind_some]
      using this
  rw [← withChildren_top t, ← withChildren_top u, htop, hchildren]
termination_by sizeOf t

/-- **A condition on all nodes is one on what stands at all places.** -/
theorem everywhere_iff_at? {P : NodeCondition} {t : Tree} :
    Everywhere P t ↔ ∀ p u, t.at? p = some u → P u.kind? u.symbol u.children.length := by
  constructor
  · intro h p u hat
    exact (everywhere_at? h hat).root
  · intro h
    cases t with
    | constant s v => exact everywhere_constant.mpr (h [] _ rfl)
    | «variable» s => exact everywhere_variable.mpr (h [] _ rfl)
    | node s cs =>
      refine everywhere_node.mpr ⟨h [] _ rfl, fun c hc => everywhere_iff_at?.mpr fun p u hat => ?_⟩
      obtain ⟨i, hi⟩ := List.mem_iff_getElem?.mp hc
      refine h (i :: p) u ?_
      rw [at?_cons, hi, Option.bind_some, hat]
termination_by sizeOf t

/-! ## 2. One replacement -/

section Replacement

variable {p q : Path} {t u new : Tree}

/-- **What is put at a place stands there.** -/
theorem at?_replace_self (new : Tree) (h : at? p t = some u) :
    at? p (replace new p t) = some new := by
  refine at?_induction (motive := fun p t => at? p (replace new p t) = some new) rfl ?_ h
  intro s before c after p _ ih
  rw [replace_cons, at?_cons, List.getElem?_append_right (Nat.le_refl _), Nat.sub_self]
  exact ih

/-- **A replacement leaves the places that are neither above nor below it** with all that is below
them. -/
theorem at?_replace_apart (new : Tree) : ∀ {p q : Path} {t : Tree}, ¬p <+: q → ¬q <+: p →
    at? q (replace new p t) = at? q t
  | [], _, _, h, _ => absurd List.nil_prefix h
  | _ :: _, [], _, _, h => absurd List.nil_prefix h
  | _ :: _, _ :: _, .constant .., _, _ => rfl
  | _ :: _, _ :: _, .variable _, _, _ => rfl
  | i :: p, j :: q, .node s cs, hpq, hqp => by
    simp only [replace, children, withChildren, at?_cons, List.getElem?_modify]
    by_cases hij : i = j
    · subst hij
      have hpq' : ¬p <+: q := fun h => hpq (List.cons_prefix_cons.mpr ⟨rfl, h⟩)
      have hqp' : ¬q <+: p := fun h => hqp (List.cons_prefix_cons.mpr ⟨rfl, h⟩)
      cases cs[i]? with
      | none => rfl
      | some c => simpa using at?_replace_apart new hpq' hqp'
    · cases cs[j]? <;> simp [hij]

/-- **A replacement leaves every node that is not below it by itself**: the nodes above the place keep
what they are, and how many children they have. -/
theorem top_at?_replace (new : Tree) : ∀ {p q : Path} {t : Tree}, ¬p <+: q →
    (at? q (replace new p t)).map top = (at? q t).map top
  | [], _, _, h => absurd List.nil_prefix h
  | _ :: _, [], .constant .., _ => rfl
  | _ :: _, [], .variable _, _ => rfl
  | _ :: _, [], .node .., _ => by
    simp only [at?_nil, Option.map_some, top, replace, children, withChildren, List.length_modify]
  | _ :: _, _ :: _, .constant .., _ => rfl
  | _ :: _, _ :: _, .variable _, _ => rfl
  | i :: p, j :: q, .node s cs, hpq => by
    simp only [replace, children, withChildren, at?_cons, List.getElem?_modify]
    by_cases hij : i = j
    · subst hij
      have hpq' : ¬p <+: q := fun h => hpq (List.cons_prefix_cons.mpr ⟨rfl, h⟩)
      cases cs[i]? with
      | none => rfl
      | some c => simpa using top_at?_replace new hpq'
    · cases cs[j]? <;> simp [hij]

end Replacement

/-! ## 3. Grafts -/

/-- One tree is another one with grafts: other subtrees at places that are not below one another. -/
structure Grafted (grafts : List Site) (t t' : Tree) : Prop where
  apart : grafts.Pairwise fun g h => ¬g.path <+: h.path ∧ ¬h.path <+: g.path
  places : ∀ g ∈ grafts, (t.at? g.path).isSome
  stand : ∀ g ∈ grafts, t'.at? g.path = some g.tree
  elsewhere : ∀ p, (∀ g ∈ grafts, ¬g.path <+: p) → (t'.at? p).map top = (t.at? p).map top

namespace Grafted

variable {grafts : List Site} {t t' u : Tree} {p : Path}

/-- A tree without grafts is the tree itself. -/
theorem refl (t : Tree) : Grafted [] t t :=
  ⟨.nil, nofun, nofun, fun _ _ => rfl⟩

/-- A place that is not below a graft is one of both trees or of neither. -/
theorem isSome_at? (h : Grafted grafts t t') (hp : ∀ g ∈ grafts, ¬g.path <+: p) :
    (t'.at? p).isSome = (t.at? p).isSome := by
  have := congrArg Option.isSome (h.elsewhere p hp)
  simpa only [Option.isSome_map] using this

/-- **A replacement at a place that is not below a graft is a graft.**  The grafts below the place go
with what stood there. -/
theorem replace (h : Grafted grafts t t') (new : Tree) (hp : ∀ g ∈ grafts, ¬g.path <+: p)
    (hat : t'.at? p = some u) :
    Grafted (⟨p, new⟩ :: grafts.filter fun g => ¬p <+: g.path) t (Tree.replace new p t') := by
  have hleft : ∀ {g}, g ∈ grafts.filter (fun g => ¬p <+: g.path) → g ∈ grafts ∧ ¬p <+: g.path := by
    intro g hg
    simpa using List.mem_filter.mp hg
  constructor
  · refine List.pairwise_cons.mpr ⟨fun g hg => ?_, h.apart.filter _⟩
    exact ⟨(hleft hg).2, hp g (hleft hg).1⟩
  · intro g hg
    rcases List.mem_cons.mp hg with rfl | hg
    · rw [← h.isSome_at? hp, hat]
      rfl
    · exact h.places g (hleft hg).1
  · intro g hg
    rcases List.mem_cons.mp hg with rfl | hg
    · exact at?_replace_self new hat
    · obtain ⟨hg, hbelow⟩ := hleft hg
      rw [at?_replace_apart new hbelow (hp g hg)]
      exact h.stand g hg
  · intro q hq
    have hpq : ¬p <+: q := hq ⟨p, new⟩ List.mem_cons_self
    rw [top_at?_replace new hpq]
    refine h.elsewhere q fun g hg hgq => ?_
    -- A graft above `q` is still there, unless it was below `p`, which would then be above `q`.
    by_cases hbelow : p <+: g.path
    · exact hpq (hbelow.trans hgq)
    · exact hq g (List.mem_cons_of_mem _ (List.mem_filter.mpr ⟨hg, by simpa using hbelow⟩)) hgq

/-- **The grafts determine the tree.** -/
theorem unique (h : Grafted grafts t t') (h' : Grafted grafts t u) : t' = u := by
  refine eq_of_tops fun q => ?_
  by_cases hq : ∀ g ∈ grafts, ¬g.path <+: q
  · rw [h.elsewhere q hq, h'.elsewhere q hq]
  · push Not at hq
    obtain ⟨g, hg, rest, rfl⟩ := hq
    rw [at?_append, at?_append, h.stand g hg, h'.stand g hg]

/-- **A condition on all nodes passes from a tree and its grafts to the tree with the grafts.** -/
theorem everywhere {P : NodeCondition} (h : Grafted grafts t t') (ht : t.Everywhere P)
    (hgrafts : ∀ g ∈ grafts, g.tree.Everywhere P) : t'.Everywhere P := by
  refine everywhere_iff_at?.mpr fun q u hu => ?_
  by_cases hq : ∀ g ∈ grafts, ¬g.path <+: q
  · have htop := h.elsewhere q hq
    rw [hu, Option.map_some] at htop
    obtain ⟨v, hv, htop⟩ := Option.map_eq_some_iff.mp htop.symm
    exact condition_of_top htop.symm (everywhere_at? ht hv).root
  · push Not at hq
    obtain ⟨g, hg, rest, rfl⟩ := hq
    rw [at?_append, h.stand g hg, Option.bind_some] at hu
    exact (everywhere_at? (hgrafts g hg) hu).root

end Grafted

/-- **A replacement puts one graft.** -/
theorem grafted_replace {p : Path} {t u : Tree} (new : Tree) (hat : t.at? p = some u) :
    Grafted [⟨p, new⟩] t (replace new p t) :=
  (Grafted.refl t).replace new nofun hat

/-! ## 4. One node -/

/-- At one place another node stands above the same subtrees, and every other node is as it was. -/
structure Altered (p : Path) (u u' t t' : Tree) : Prop where
  was : t.at? p = some u
  is : t'.at? p = some u'
  children : u'.children = u.children
  elsewhere : ∀ q, q ≠ p → (t'.at? q).map top = (t.at? q).map top

/-- Two trees have the same places, with as many children at each of them. -/
def SameShape (t t' : Tree) : Prop :=
  ∀ q, (t'.at? q).map (·.children.length) = (t.at? q).map (·.children.length)

theorem SameShape.refl (t : Tree) : SameShape t t := fun _ => rfl

section Altered

variable {p : Path} {t t' u u' : Tree}

/-- **A replacement by a node above the same subtrees alters that node.** -/
theorem altered_replace (hat : t.at? p = some u) (hchildren : u'.children = u.children) :
    Altered p u u' t (replace u' p t) := by
  refine ⟨hat, at?_replace_self u' hat, hchildren, fun q hq => ?_⟩
  by_cases hbelow : p <+: q
  · obtain ⟨rest, rfl⟩ := hbelow
    rw [at?_append, at?_append, at?_replace_self u' hat, hat, Option.bind_some, Option.bind_some]
    cases rest with
    | nil => exact absurd (List.append_nil p) hq
    | cons i rest => simp only [at?, hchildren]
  · exact top_at?_replace u' hbelow

/-- A tree with a node altered is another tree if the node is another one. -/
theorem Altered.ne (h : Altered p u u' t t') (hne : u' ≠ u) : t' ≠ t := by
  rintro rfl
  exact hne (Option.some.inj (h.is.symm.trans h.was))

/-- **Altering a node leaves the shape alone.** -/
theorem Altered.sameShape (h : Altered p u u' t t') : SameShape t t' := by
  intro q
  by_cases hq : q = p
  · subst hq
    rw [h.was, h.is, Option.map_some, Option.map_some, h.children]
  · have htop := congrArg (Option.map Prod.snd) (h.elsewhere q hq)
    rw [Option.map_map, Option.map_map] at htop
    exact htop

end Altered

end Tree
end FormulaEvolution
