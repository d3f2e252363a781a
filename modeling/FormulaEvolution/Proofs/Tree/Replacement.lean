/-
# Changing a tree at one place

What `Tree.replace` and `Tree.erase` do to the length, the depth and the nodes of a tree, and which
subtrees the sites of a tree point at.

A path that leads somewhere runs through nodes only, and at each of them it splits the children
into those before the one it goes to, that one, and those after it.  `Tree.at?_induction` turns
this into an induction, and every statement about a change at one place is proved by it: the
siblings contribute the same to both sides, and the child on the way is left to the hypothesis.

`Tree.Everywhere P` says that every node satisfies `P` of what it stands for, its symbol and its
number of children.  `Tree.Fits` and `Tree.Made` are such conditions, and so is being made of the
candidates of a grammar.
-/
import FormulaEvolution.Proofs.Sequence
import FormulaEvolution.Tree.Site

namespace FormulaEvolution
namespace Tree

/-! ## 1. Conditions on all nodes -/

/-- A condition on a node: on what it stands for, its symbol and its number of children. -/
abbrev NodeCondition := Option TerminalKind → Symbol → Nat → Prop

/-- Every node satisfies a condition. -/
def Everywhere (P : NodeCondition) (t : Tree) : Prop :=
  ∀ u ∈ t.preorder, P u.kind? u.symbol u.children.length

theorem mem_preorderAll {u : Tree} : ∀ {cs : List Tree},
    u ∈ preorderAll cs ↔ ∃ c ∈ cs, u ∈ c.preorder
  | [] => by simp [preorderAll]
  | c :: cs => by simp [preorderAll, mem_preorderAll (u := u)]

section Everywhere

variable {P Q : NodeCondition}

@[simp] theorem everywhere_constant {s : Symbol} {v : Float} :
    Everywhere P (.constant s v) ↔ P (some .constant) s 0 := by
  simp [Everywhere, preorder, kind?, symbol, children]

@[simp] theorem everywhere_variable {s : Symbol} :
    Everywhere P (.variable s) ↔ P (some .variable) s 0 := by
  simp [Everywhere, preorder, kind?, symbol, children]

/-- A condition holds everywhere in a tree if it holds at the root and everywhere below it. -/
@[simp] theorem everywhere_node {s : Symbol} {cs : List Tree} :
    Everywhere P (.node s cs) ↔ P none s cs.length ∧ ∀ c ∈ cs, Everywhere P c := by
  constructor
  · intro h
    refine ⟨h (.node s cs) (by simp [preorder]), fun c hc u hu => h u ?_⟩
    exact List.mem_cons_of_mem _ (mem_preorderAll.mpr ⟨c, hc, hu⟩)
  · rintro ⟨hroot, hbelow⟩ u hu
    rcases List.mem_cons.mp hu with rfl | hu
    · exact hroot
    · obtain ⟨c, hc, hu⟩ := mem_preorderAll.mp hu
      exact hbelow c hc u hu

theorem Everywhere.mono {t : Tree} (h : Everywhere P t) (hPQ : ∀ k s n, P k s n → Q k s n) :
    Everywhere Q t :=
  fun u hu => hPQ _ _ _ (h u hu)

theorem Everywhere.root {t : Tree} (h : Everywhere P t) : P t.kind? t.symbol t.children.length :=
  h t (by cases t <;> simp [preorder])

theorem everywhere_child {t c : Tree} (ht : Everywhere P t)
    (h : c ∈ t.children) : Everywhere P c := by
  match t with
  | .constant .. => simp [children] at h
  | .variable _ => simp [children] at h
  | .node s cs => exact (everywhere_node.mp ht).2 c h

end Everywhere

/-! ## 2. Where paths lead -/

@[simp] theorem at?_leaf_constant {i : Nat} {p : Path} {s : Symbol} {v : Float} :
    at? (i :: p) (.constant s v) = none := rfl

@[simp] theorem at?_leaf_variable {i : Nat} {p : Path} {s : Symbol} :
    at? (i :: p) (.variable s) = none := rfl

@[simp] theorem at?_cons {i : Nat} {p : Path} {s : Symbol} {cs : List Tree} :
    at? (i :: p) (.node s cs) = cs[i]?.bind (at? p) := rfl

theorem modify_split {c : Tree} {after : List Tree} (f : Tree → Tree) : ∀ before : List Tree,
    (before ++ c :: after).modify before.length f = before ++ f c :: after
  | [] => rfl
  | d :: before => by
    simp only [List.cons_append, List.length_cons, List.modify_succ_cons, modify_split f before]

/-- **Induction along a path that leads to a subtree.**  Each step goes through a node whose
children are split at the one the path goes to. -/
theorem at?_induction {u : Tree} {motive : Path → Tree → Prop} (here : motive [] u)
    (below : ∀ s before c after p, at? p c = some u → motive p c →
      motive (before.length :: p) (.node s (before ++ c :: after))) :
    ∀ {p : Path} {t : Tree}, at? p t = some u → motive p t
  | [], t, h => by
    obtain rfl : t = u := by simpa using h
    exact here
  | i :: p, .constant s v, h => by simp at h
  | i :: p, .variable s, h => by simp at h
  | i :: p, .node s cs, h => by
    rw [at?_cons, Option.bind_eq_some_iff] at h
    obtain ⟨c, hc, hu⟩ := h
    obtain ⟨before, after, rfl, rfl⟩ := split_of_getElem? hc
    exact below s before c after p hu (at?_induction here below hu)

/-- A path may be followed in two parts. -/
theorem at?_append (q : Path) : ∀ (p : Path) (t : Tree),
    at? (p ++ q) t = (at? p t).bind (at? q)
  | [], _ => rfl
  | _ :: _, .constant .. => rfl
  | _ :: _, .variable _ => rfl
  | i :: p, .node s cs => by
    simp only [List.cons_append, at?_cons, Option.bind_assoc]
    congr 1
    exact funext (at?_append q p)

/-- A path with one step more leads to a child. -/
theorem at?_concat {p : Path} {t parent : Tree} (i : Nat) (h : at? p t = some parent) :
    at? (p ++ [i]) t = parent.children[i]? := by
  rw [at?_append, h, Option.bind_some]
  cases hc : parent.children[i]? <;> simp [at?, hc]

@[simp] theorem replace_cons {new c : Tree} {s : Symbol} {before after : List Tree} {p : Path} :
    replace new (before.length :: p) (.node s (before ++ c :: after)) =
      .node s (before ++ replace new p c :: after) := by
  simp only [replace, children, withChildren, modify_split]

@[simp] theorem erase_singleton {c : Tree} {s : Symbol} {before after : List Tree} :
    erase [before.length] (.node s (before ++ c :: after)) = .node s (before ++ after) := by
  simp only [erase, children, withChildren, eraseIdx_split]

@[simp] theorem erase_cons {c : Tree} {s : Symbol} {before after : List Tree} {i : Nat} {p : Path} :
    erase (before.length :: i :: p) (.node s (before ++ c :: after)) =
      .node s (before ++ erase (i :: p) c :: after) := by
  simp only [erase, children, withChildren, modify_split]

/-- **Taking a child out is a replacement of its parent** by the same node without the child. -/
theorem erase_child {p : Path} {t parent : Tree} (i : Nat) (h : at? p t = some parent) :
    erase (p ++ [i]) t = replace (parent.withChildren (parent.children.eraseIdx i)) p t := by
  refine at?_induction (motive := fun p t =>
    erase (p ++ [i]) t = replace (parent.withChildren (parent.children.eraseIdx i)) p t) rfl ?_ h
  intro s before c after p _ ih
  obtain ⟨j, q, hjq⟩ := List.exists_cons_of_ne_nil (List.append_ne_nil_of_right_ne_nil p
    (List.cons_ne_nil i []))
  rw [List.cons_append, replace_cons, hjq, erase_cons, ← hjq, ih]

/-- **Exchanging a child is a replacement of its parent** by the same node with the other child. -/
theorem replace_concat {p : Path} {t u w : Tree} {s : Symbol} {us ws : List Tree}
    (h : at? p t = some (.node s (us ++ u :: ws))) :
    replace w (p ++ [us.length]) t = replace (.node s (us ++ w :: ws)) p t := by
  refine at?_induction (motive := fun p t =>
    replace w (p ++ [us.length]) t = replace (.node s (us ++ w :: ws)) p t) ?_ ?_ h
  · rw [List.nil_append, replace_cons]
    rfl
  · intro s' before c after p _ ih
    rw [List.cons_append, replace_cons, replace_cons, ih]

/-- A subtree of a node stands between others. -/
theorem exists_split {t u : Tree} {k : Nat} (h : t.children[k]? = some u) :
    ∃ s us ws, t = .node s (us ++ u :: ws) ∧ us.length = k := by
  cases t with
  | node s cs =>
    obtain ⟨us, ws, rfl, hk⟩ := split_of_getElem? h
    exact ⟨s, us, ws, rfl, hk⟩
  | _ => cases h

/-! ## 3. Places that are there -/

section Presence

variable {p : Path} {t u : Tree}

/-- Something can be put at a place that the tree has. -/
theorem put_of_at? (new : Tree) (h : at? p t = some u) : put new p t = .ok (replace new p t) := by
  rw [put, if_pos (by simp [h])]

/-- A subtree can be taken out if its parent has a child more than it needs. -/
theorem takeOut_of_at? {parent : Tree} {i : Nat} (h : at? (p ++ [i]) t = some u)
    (hparent : at? p t = some parent) (hspare : parent.symbol.least < parent.children.length) :
    takeOut (p ++ [i]) t = .ok (erase (p ++ [i]) t) := by
  have hplace : (parentPath? (p ++ [i])).bind (at? · t) = some parent := by
    simp [parentPath?, hparent]
  simp only [takeOut, hplace, h, Option.isNone_some, Bool.false_eq_true, if_false]
  rw [if_neg (by omega)]

end Presence

/-! ## 4. Length and depth -/

/-- A child has fewer nodes than its parent, and fewer levels. -/
theorem child_lt {t c : Tree} (h : c ∈ t.children) : c.length < t.length ∧ c.depth < t.depth := by
  match t with
  | .constant .. => simp [children] at h
  | .variable _ => simp [children] at h
  | .node s cs =>
    obtain ⟨before, after, rfl⟩ := List.append_of_mem h
    simp only [length, depth, totalLength_append, totalLength, greatestDepth_append, greatestDepth]
    omega

theorem greatestDepth_le {depth : Nat} : ∀ {cs : List Tree}, (∀ c ∈ cs, c.depth ≤ depth) →
    greatestDepth cs ≤ depth
  | [], _ => Nat.zero_le _
  | c :: cs, h => by
    have hc := h c (by simp)
    have hcs := greatestDepth_le fun d hd => h d (List.mem_cons_of_mem _ hd)
    simp only [greatestDepth]
    omega

/-- A tree has a node on every level. -/
theorem depth_le_length (t : Tree) : t.depth ≤ t.length := by
  have hbelow : greatestDepth t.children ≤ t.length - 1 := greatestDepth_le fun c hc => by
    have hsmaller := (child_lt hc).1
    have hc := c.depth_le_length
    omega
  have hpos := t.length_pos
  rw [depth_eq]
  omega
termination_by t.length

section Places

variable {p : Path} {t u : Tree}

/-- The levels above a subtree and its own levels are levels of the tree. -/
theorem level_add_depth_le (h : at? p t = some u) : p.length + u.depth ≤ t.depth := by
  refine at?_induction (motive := fun p t => p.length + u.depth ≤ t.depth) (by simp) ?_ h
  intro s before c after p _ ih
  simp only [depth, greatestDepth_append, greatestDepth, List.length_cons]
  omega

/-- **A replacement takes the nodes of the old subtree away and adds those of the new one.** -/
theorem length_replace (new : Tree) (h : at? p t = some u) :
    (replace new p t).length + u.length = t.length + new.length := by
  refine at?_induction (motive := fun p t =>
    (replace new p t).length + u.length = t.length + new.length) (Nat.add_comm _ _) ?_ h
  intro s before c after p _ ih
  simp only [replace_cons, length, totalLength_append, totalLength]
  omega

/-- **A replacement adds no levels but those above the place and those of the new subtree.** -/
theorem depth_replace_le (new : Tree) (h : at? p t = some u) :
    (replace new p t).depth ≤ max t.depth (p.length + new.depth) := by
  refine at?_induction (motive := fun p t =>
    (replace new p t).depth ≤ max t.depth (p.length + new.depth)) ?_ ?_ h
  · simp only [replace_nil, List.length_nil]
    omega
  · intro s before c after p _ ih
    simp only [replace_cons, depth, greatestDepth_append, greatestDepth, List.length_cons]
    omega

/-- A replacement by something as deep leaves the depth. -/
theorem depth_replace_eq {new : Tree} (h : at? p t = some u) (hdepth : new.depth = u.depth) :
    (replace new p t).depth = t.depth := by
  refine at?_induction (motive := fun p t => (replace new p t).depth = t.depth) hdepth ?_ h
  intro s before c after p _ ih
  simp only [replace_cons, depth, greatestDepth_append, greatestDepth, ih]

/-- Taking a subtree out takes its nodes away and nothing else. -/
theorem length_erase (h : at? p t = some u) (hp : p ≠ []) :
    (erase p t).length + u.length = t.length := by
  refine at?_induction (motive := fun p t => p ≠ [] →
    (erase p t).length + u.length = t.length) (fun h => absurd rfl h) ?_ h hp
  intro s before c after p hc ih _
  cases p with
  | nil =>
    obtain rfl : c = u := by simpa using hc
    simp only [erase_singleton, length, totalLength_append, totalLength]
    omega
  | cons i p =>
    have := ih (List.cons_ne_nil i p)
    simp only [erase_cons, length, totalLength_append, totalLength]
    omega

theorem depth_erase_le (h : at? p t = some u) (hp : p ≠ []) : (erase p t).depth ≤ t.depth := by
  refine at?_induction (motive := fun p t => p ≠ [] → (erase p t).depth ≤ t.depth)
    (fun h => absurd rfl h) ?_ h hp
  intro s before c after p hc ih _
  cases p with
  | nil =>
    simp only [erase_singleton, depth, greatestDepth_append, greatestDepth]
    omega
  | cons i p =>
    have := ih (List.cons_ne_nil i p)
    simp only [erase_cons, depth, greatestDepth_append, greatestDepth]
    omega

/-! ## 5. Conditions on all nodes under a change -/

variable {P : NodeCondition}

theorem everywhere_at? (ht : Everywhere P t) (h : at? p t = some u) : Everywhere P u := by
  refine at?_induction (motive := fun _ t => Everywhere P t → Everywhere P u) id ?_ h ht
  intro s before c after p _ ih hnode
  exact ih ((everywhere_node.mp hnode).2 c (by simp))

/-- A node's condition does not see which subtrees its children are. -/
theorem everywhere_split {s : Symbol} {before after : List Tree} {c d : Tree}
    (h : Everywhere P (.node s (before ++ c :: after))) (hd : Everywhere P d) :
    Everywhere P (.node s (before ++ d :: after)) := by
  obtain ⟨hroot, hbelow⟩ := everywhere_node.mp h
  refine everywhere_node.mpr ⟨by simpa using hroot, fun e he => ?_⟩
  rcases List.mem_append.mp he with he | he
  · exact hbelow e (List.mem_append_left _ he)
  · rcases List.mem_cons.mp he with rfl | he
    · exact hd
    · exact hbelow e (List.mem_append_right _ (List.mem_cons_of_mem _ he))

/-- **A replacement keeps a condition on all nodes that the new subtree satisfies.** -/
theorem everywhere_replace {new : Tree} (ht : Everywhere P t) (hnew : Everywhere P new)
    (h : at? p t = some u) : Everywhere P (replace new p t) := by
  refine at?_induction (motive := fun p t => Everywhere P t → Everywhere P (replace new p t))
    (fun _ => hnew) ?_ h ht
  intro s before c after p _ ih hnode
  rw [replace_cons]
  exact everywhere_split hnode (ih ((everywhere_node.mp hnode).2 c (by simp)))

/-- A node without one of its children satisfies a condition on all nodes if it does so by itself. -/
theorem everywhere_eraseIdx {parent : Tree} {i : Nat} (h : Everywhere P parent)
    (hi : i < parent.children.length)
    (hparent : P parent.kind? parent.symbol (parent.children.length - 1)) :
    Everywhere P (parent.withChildren (parent.children.eraseIdx i)) := by
  match parent with
  | .constant .. => exact absurd hi (Nat.not_lt_zero i)
  | .variable _ => exact absurd hi (Nat.not_lt_zero i)
  | .node s cs =>
    refine everywhere_node.mpr ⟨?_, fun e he => ?_⟩
    · rw [List.length_eraseIdx_of_lt hi]
      exact hparent
    · exact (everywhere_node.mp h).2 e (List.mem_of_mem_eraseIdx he)

/-- Taking a subtree out keeps a condition on all nodes if the parent satisfies it with one child
less. -/
theorem everywhere_erase {parent : Tree} {i : Nat} (ht : Everywhere P t)
    (h : at? p t = some parent) (hi : i < parent.children.length)
    (hparent : P parent.kind? parent.symbol (parent.children.length - 1)) :
    Everywhere P (erase (p ++ [i]) t) := by
  rw [erase_child i h]
  exact everywhere_replace ht (everywhere_eraseIdx (everywhere_at? ht h) hi hparent) h

end Places

/-! ## 6. Sites -/

mutual

/-- **A site points at the subtree that it holds.** -/
theorem at?_of_mem_sites {site : Site} : ∀ {t : Tree}, site ∈ t.sites →
    at? site.path t = some site.tree
  | .constant s v, h => by
    obtain rfl : site = ⟨[], .constant s v⟩ := by simpa [sites] using h
    rfl
  | .variable s, h => by
    obtain rfl : site = ⟨[], .variable s⟩ := by simpa [sites] using h
    rfl
  | .node s cs, h => by
    rw [sites, List.mem_append, List.mem_singleton] at h
    rcases h with h | rfl
    · obtain ⟨j, p, hpath, hat⟩ := at?_of_mem_sitesFrom h
      rw [Nat.zero_add] at hpath
      rw [hpath, at?_cons, hat]
    · rfl

theorem at?_of_mem_sitesFrom {site : Site} : ∀ {i : Nat} {cs : List Tree},
    site ∈ sitesFrom i cs →
      ∃ j p, site.path = (i + j) :: p ∧ cs[j]?.bind (at? p) = some site.tree
  | _, [], h => by simp [sitesFrom] at h
  | i, c :: cs, h => by
    rw [sitesFrom, List.mem_append, List.mem_map] at h
    rcases h with ⟨below, hbelow, rfl⟩ | h
    · exact ⟨0, below.path, rfl, at?_of_mem_sites hbelow⟩
    · obtain ⟨j, p, hpath, hat⟩ := at?_of_mem_sitesFrom h
      exact ⟨j + 1, p, by rw [hpath, Nat.add_right_comm, Nat.add_assoc], hat⟩

end

/-- What stands in one of several trees is among their sites. -/
theorem mem_sitesFrom {c : Tree} {site : Site} (h : site ∈ c.sites) (i : Nat)
    (before after : List Tree) :
    site.below (i + before.length) ∈ sitesFrom i (before ++ c :: after) := by
  induction before generalizing i with
  | nil => exact List.mem_append_left _ (List.mem_map_of_mem h)
  | cons d before ih =>
    have hrest := ih (i + 1)
    rw [Nat.add_right_comm] at hrest
    exact List.mem_append_right _ hrest

/-- **There is a site wherever a path leads.** -/
theorem mem_sites_of_at? {p : Path} {t u : Tree} (h : at? p t = some u) : ⟨p, u⟩ ∈ t.sites := by
  refine at?_induction (motive := fun p t => ⟨p, u⟩ ∈ t.sites) ?_ ?_ h
  · cases u <;> simp [sites]
  · intro s before c after p _ ih
    have hbelow := mem_sitesFrom ih 0 before after
    rw [Nat.zero_add] at hbelow
    rw [sites]
    exact List.mem_append_left _ hbelow

mutual

/-- **No site stands below one that is listed before it.** -/
theorem sites_ordered : ∀ t : Tree, t.sites.Pairwise fun first second => ¬first.path <+: second.path
  | .constant .. => List.pairwise_singleton _ _
  | .variable _ => List.pairwise_singleton _ _
  | .node s cs => by
    rw [sites, List.pairwise_append]
    refine ⟨sitesFrom_ordered 0 cs, List.pairwise_singleton _ _, fun first hfirst last hlast => ?_⟩
    obtain rfl := List.mem_singleton.mp hlast
    obtain ⟨j, p, hpath, -⟩ := at?_of_mem_sitesFrom hfirst
    simp [hpath]

theorem sitesFrom_ordered : ∀ (i : Nat) (cs : List Tree),
    (sitesFrom i cs).Pairwise fun first second => ¬first.path <+: second.path
  | _, [] => .nil
  | i, c :: cs => by
    rw [sitesFrom, List.pairwise_append, List.pairwise_map]
    refine ⟨(sites_ordered c).imp fun h hbelow => ?_, sitesFrom_ordered (i + 1) cs, ?_⟩
    · exact h (List.cons_prefix_cons.mp hbelow).2
    · intro first hfirst second hsecond hbelow
      obtain ⟨site, -, rfl⟩ := List.mem_map.mp hfirst
      obtain ⟨j, p, hpath, -⟩ := at?_of_mem_sitesFrom hsecond
      rw [hpath] at hbelow
      have hindex := (List.cons_prefix_cons.mp hbelow).1
      omega

end

/-- A site that is drawn from those of a level points at its subtree and is on that level. -/
theorem at?_of_mem_sitesAt {t : Tree} : ∀ {level : Nat} {site : Site}, site ∈ t.sitesAt level →
    at? site.path t = some site.tree ∧ site.level = level
  | 0, site, h => by
    obtain rfl : site = ⟨[], t⟩ := by simpa [sitesAt] using h
    exact ⟨rfl, rfl⟩
  | level + 1, site, h => by
    rw [sitesAt, List.mem_flatMap] at h
    obtain ⟨parent, hparent, hsite⟩ := h
    obtain ⟨hat, hlevel⟩ := at?_of_mem_sitesAt hparent
    simp only [Site.children, List.mem_mapIdx] at hsite
    obtain ⟨i, hi, rfl⟩ := hsite
    constructor
    · have hchild : parent.tree.children[i]? = some parent.tree.children[i] :=
        List.getElem?_eq_getElem hi
      simp [at?_append, hat, at?, hchild]
    · simpa [Site.level] using hlevel

/-- The deepest of some trees is one of them. -/
theorem exists_depth_eq : ∀ cs : List Tree, 0 < greatestDepth cs →
    ∃ c ∈ cs, c.depth = greatestDepth cs
  | [], h => by simp [greatestDepth] at h
  | c :: cs, _ => by
    by_cases hc : greatestDepth cs ≤ c.depth
    · exact ⟨c, by simp, by simp only [greatestDepth]; omega⟩
    · obtain ⟨d, hd, hdepth⟩ := exists_depth_eq cs (by omega)
      exact ⟨d, List.mem_cons_of_mem _ hd, by simp only [greatestDepth]; omega⟩

/-- On every level of a tree there is a site from which the lowest level can be reached. -/
theorem exists_site_reaching {t : Tree} : ∀ level : Nat, level < t.depth →
    ∃ site ∈ t.sitesAt level, t.depth = level + site.tree.depth
  | 0, _ => ⟨⟨[], t⟩, by simp [sitesAt], by simp⟩
  | level + 1, h => by
    obtain ⟨parent, hparent, hdepth⟩ := exists_site_reaching (t := t) level (by omega)
    rw [depth_eq parent.tree] at hdepth
    obtain ⟨c, hc, hcd⟩ := exists_depth_eq parent.tree.children (by omega)
    obtain ⟨i, hi, rfl⟩ := List.mem_iff_getElem.mp hc
    refine ⟨⟨parent.path ++ [i], parent.tree.children[i]⟩, ?_, ?_⟩
    · rw [sitesAt, List.mem_flatMap]
      exact ⟨parent, hparent, List.mem_mapIdx.mpr ⟨i, hi, rfl⟩⟩
    · simp only
      omega

/-- Every level of a tree has a site. -/
theorem sitesAt_ne_nil {t : Tree} {level : Nat} (h : level < t.depth) : t.sitesAt level ≠ [] := by
  obtain ⟨site, hsite, _⟩ := exists_site_reaching level h
  exact List.ne_nil_of_mem hsite

end Tree
end FormulaEvolution
