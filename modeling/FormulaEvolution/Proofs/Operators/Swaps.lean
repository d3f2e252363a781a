/-
# Swaps all over a tree

The uniform crossover lists the sites of the first parent and visits one after the other.  What stands
there may be swapped for a subtree of the second parent, if there is room, so that the child changes while
the list stays as it was made (`Crossover.uniform_swaps`).

The order of the list makes this sound: no site stands below one that is listed before it.  Swaps are
made at sites that have been visited only, so that

* a site is still there when its turn comes, with the same node by itself: only what is below it may have
  been swapped;
* a site is never one of a subtree that has been swapped in;
* a swap undoes those below it and no others, and what is left of all swaps are grafts at places that are
  not below one another (`Tree.Grafted.replace`).

Each visit keeps all this, and the bounds, from any state of the child (`Offspring.visit`), hence a run of
visits does (`runFrom_swapAlong`).
-/
import FormulaEvolution.Proofs.Operators.Creation
import FormulaEvolution.Proofs.Operators.Donors

namespace FormulaEvolution
namespace Crossover

variable {σ : Type} [RandomSource σ] {b : Budget} {p : Float} {donors : List Tree}
  {parent0 parent1 child : Tree}

/-! ## 1. Visits one after the other -/

/-- **The visits of some places come down to that of the first one**, and those of the others from where
it has ended. -/
theorem swapAlong_cons (path : Path) (paths : List Path) (child : Tree) :
    (swapAlong b p donors (path :: paths) child : Draws σ Tree) =
      swapAlong b p donors [path] child >>= swapAlong b p donors paths := by
  simp only [swapAlong, bind_assoc]
  congr 1
  funext u
  split
  · simp only [bind_assoc]
    congr 1
    funext donor
    split
    · simp only [bind_assoc, pure_bind]
    · rw [pure_bind]
  · rw [pure_bind]

/-- The visits of some places and of others after them are those of the first, and then those of the
others. -/
theorem runFrom_swapAlong_append {first : List Path} (rest : List Path) {child before : Tree} {s s' : σ}
    (h : (swapAlong b p donors first child).runFrom s = (.ok before, s')) :
    (swapAlong b p donors (first ++ rest) child).runFrom s =
      (swapAlong b p donors rest before).runFrom s' := by
  induction first generalizing child s with
  | nil =>
    obtain ⟨hchild, rfl⟩ := Prod.mk.inj h
    rw [Except.ok.inj hchild, List.nil_append]
  | cons path first ih =>
    rw [swapAlong_cons, Draws.runFrom_bind] at h
    rw [List.cons_append, swapAlong_cons, Draws.runFrom_bind]
    match hvisit : (swapAlong b p donors [path] child).runFrom s with
    | (.ok after, s₁) =>
      rw [hvisit] at h
      exact ih h
    | (.error failure, s₁) =>
      rw [hvisit] at h
      cases h

/-- What a visit of a site does: the site is passed over, or a donor is drawn, which is refused if there is
no room for it and is swapped for what stands there if there is. -/
inductive Visited (b : Budget) (p : Float) (donors : List Tree) (child : Tree) (site : Site) (s : σ) :
    Tree → σ → Prop
  | passed {u : Float} {s' : σ} : Draws.unit.runFrom s = (.ok u, s') → ¬u < p →
    Visited b p donors child site s child s'
  | refused {u : Float} {donor : Tree} {s₁ s' : σ} : Draws.unit.runFrom s = (.ok u, s₁) → u < p →
    (Draws.choose donors).runFrom s₁ = (.ok donor, s') → ¬b.HasRoom child site donor →
    Visited b p donors child site s child s'
  | swapped {u : Float} {donor : Tree} {s₁ s' : σ} : Draws.unit.runFrom s = (.ok u, s₁) → u < p →
    (Draws.choose donors).runFrom s₁ = (.ok donor, s') → donor ∈ donors → b.HasRoom child site donor →
    Visited b p donors child site s (Tree.replace donor site.path child) s'

/-- A visit leaves the child as it is or swaps what stands at the site for a donor that there is room
for. -/
theorem Visited.outcome {site : Site} {s s' : σ} {after : Tree}
    (h : Visited b p donors child site s after s') : after = child ∨
      ∃ donor ∈ donors, b.HasRoom child site donor ∧ after = Tree.replace donor site.path child := by
  cases h with
  | passed _ _ => exact .inl rfl
  | refused _ _ _ _ => exact .inl rfl
  | swapped _ _ _ hdonor hroom => exact .inr ⟨_, hdonor, hroom, rfl⟩

/-- **A place that is there is visited**, and that is all there is to its turn. -/
theorem runFrom_visit {path : Path} {here : Tree} (hne : donors ≠ [])
    (hat : child.at? path = some here) (s : σ) :
    ∃ after s', (swapAlong b p donors [path] child).runFrom s = (.ok after, s') ∧
      Visited b p donors child ⟨path, here⟩ s after s' := by
  obtain ⟨u, s₁, hunit, -⟩ := Draws.returns_unit s
  simp only [swapAlong, Draws.runFrom_bind_ok hunit]
  split
  · next hlow =>
    obtain ⟨donor, s₂, hdraw, hdonor⟩ := Draws.returns_choose hne s₁
    rw [Draws.runFrom_bind_ok hdraw, hat, Option.elim_some]
    by_cases hroom : b.HasRoom child ⟨path, here⟩ donor
    · have hadmits : b.admits ((child.length : Int) - here.length) path.length donor = true :=
        (Budget.admits_iff.mpr hroom :)
      rw [if_pos hadmits, Tree.put_of_at? donor hat]
      exact ⟨_, s₂, rfl, .swapped hunit hlow hdraw hdonor hroom⟩
    · have hadmits : ¬b.admits ((child.length : Int) - here.length) path.length donor = true :=
        fun h => hroom (Budget.admits_iff.mp h)
      rw [if_neg hadmits]
      exact ⟨child, s₂, rfl, .refused hunit hlow hdraw hroom⟩
  · next hhigh => exact ⟨child, s₁, rfl, .passed hunit hhigh⟩

/-! ## 2. The child on the way -/

/-- A child on the way: the first parent with subtrees of the second one as grafts, within the budget or
not beyond the first parent. -/
structure Offspring (b : Budget) (parent0 parent1 : Tree) (grafts : List Site) (child : Tree) : Prop where
  grafted : Tree.Grafted grafts parent0 child
  donated : ∀ g ∈ grafts, ∃ path, parent1.at? path = some g.tree
  bounds : b.Bounds parent0 child

namespace Offspring

variable {grafts : List Site}

theorem refl (b : Budget) (parent0 parent1 : Tree) : Offspring b parent0 parent1 [] parent0 where
  grafted := .refl parent0
  donated := nofun
  bounds := .refl b parent0

/-- A condition on all nodes passes from the parents to a child on the way. -/
theorem everywhere {P : Tree.NodeCondition} (h : Offspring b parent0 parent1 grafts child)
    (h0 : parent0.Everywhere P) (h1 : parent1.Everywhere P) : child.Everywhere P := by
  refine h.grafted.everywhere h0 fun g hg => ?_
  obtain ⟨path, hpath⟩ := h.donated g hg
  exact Tree.everywhere_at? h1 hpath

theorem fits (h : Offspring b parent0 parent1 grafts child) (h0 : parent0.Fits) (h1 : parent1.Fits) :
    child.Fits :=
  h.everywhere (P := fun _ s n => s.accepts n = true) h0 h1

/-- **A swap keeps a child one on the way**, at a place that no graft is above. -/
theorem swap {here donor : Tree} {path : Path} (h : Offspring b parent0 parent1 grafts child)
    (habove : ∀ g ∈ grafts, ¬g.path <+: path) (hat : child.at? path = some here)
    (hdonor : donor ∈ parent1.postorder) (hroom : b.HasRoom child ⟨path, here⟩ donor) :
    Offspring b parent0 parent1 (⟨path, donor⟩ :: grafts.filter fun g => ¬path <+: g.path)
      (Tree.replace donor path child) where
  grafted := h.grafted.replace donor habove hat
  donated := by
    refine List.forall_mem_cons.mpr ⟨Tree.exists_at?_of_mem_postorder hdonor, fun g hg => ?_⟩
    exact h.donated g (List.mem_filter.mp hg).1
  bounds := h.bounds.trans (hroom.bounds hat)

/-- **A visit keeps a child one on the way**, if the place is one of the first parent that no graft is
above.  The only graft that is new is at the place. -/
theorem visit {path : Path} (h : Offspring b parent0 parent1 grafts child)
    (hthere : (parent0.at? path).isSome) (habove : ∀ g ∈ grafts, ¬g.path <+: path) (s : σ) :
    ∃ after grafts' s', (swapAlong b p parent1.postorder [path] child).runFrom s = (.ok after, s') ∧
      Offspring b parent0 parent1 grafts' after ∧ ∀ g ∈ grafts', g ∈ grafts ∨ g.path = path := by
  have hsome := h.grafted.isSome_at? habove
  rw [hthere] at hsome
  obtain ⟨here, hat⟩ := Option.isSome_iff_exists.mp hsome
  obtain ⟨after, s', hrun, hvisited⟩ :=
    runFrom_visit (b := b) (p := p) (Tree.postorder_ne_nil parent1) hat s
  rcases hvisited.outcome with rfl | ⟨donor, hdonor, hroom, rfl⟩
  · exact ⟨after, grafts, s', hrun, h, fun g hg => .inl hg⟩
  · refine ⟨_, _, s', hrun, h.swap habove hat hdonor hroom, ?_⟩
    exact List.forall_mem_cons.mpr ⟨.inr rfl, fun g hg => .inl (List.mem_filter.mp hg).1⟩

end Offspring

/-- **A run of visits keeps a child one on the way**, if no place is below one that is visited before it.
The only grafts that are new are at places that have been visited. -/
theorem runFrom_swapAlong {paths : List Path} {grafts : List Site}
    (h : Offspring b parent0 parent1 grafts child)
    (hordered : paths.Pairwise fun first second => ¬first <+: second)
    (hthere : ∀ path ∈ paths, (parent0.at? path).isSome)
    (habove : ∀ path ∈ paths, ∀ g ∈ grafts, ¬g.path <+: path) (s : σ) :
    ∃ after grafts' s', (swapAlong b p parent1.postorder paths child).runFrom s = (.ok after, s') ∧
      Offspring b parent0 parent1 grafts' after ∧ ∀ g ∈ grafts', g ∈ grafts ∨ g.path ∈ paths := by
  induction paths generalizing child grafts s with
  | nil => exact ⟨child, grafts, s, rfl, h, fun g hg => .inl hg⟩
  | cons path paths ih =>
    obtain ⟨hlater, hordered⟩ := List.pairwise_cons.mp hordered
    obtain ⟨hhere, hthere⟩ := List.forall_mem_cons.mp hthere
    obtain ⟨hfree, habove⟩ := List.forall_mem_cons.mp habove
    obtain ⟨next, grafts₁, s₁, hvisit, hnext, hgrafts₁⟩ := h.visit hhere hfree s
    have habove₁ : ∀ q ∈ paths, ∀ g ∈ grafts₁, ¬g.path <+: q := by
      intro q hq g hg
      rcases hgrafts₁ g hg with hold | hnew
      · exact habove q hq g hold
      · rw [hnew]
        exact hlater q hq
    obtain ⟨after, grafts₂, s₂, hrun, hafter, hgrafts₂⟩ := ih hnext hordered hthere habove₁ s₁
    refine ⟨after, grafts₂, s₂, ?_, hafter, ?_⟩
    · rw [swapAlong_cons, Draws.runFrom_bind_ok hvisit, hrun]
    · intro g hg
      rcases hgrafts₂ g hg with hg | hg
      · rcases hgrafts₁ g hg with hold | hnew
        · exact .inl hold
        · exact .inr (hnew ▸ List.mem_cons_self)
      · exact .inr (List.mem_cons_of_mem path hg)

/-! ## 3. All visits -/

/-- **Visits of the first sites of a parent leave a child on the way**, with grafts at these sites only. -/
theorem runFrom_swapAlong_sites {visited later : List Site} (parent1 : Tree)
    (hsites : parent0.sites = visited ++ later) (s : σ) :
    ∃ child grafts s',
      (swapAlong b p parent1.postorder (visited.map (·.path)) parent0).runFrom s = (.ok child, s') ∧
      Offspring b parent0 parent1 grafts child ∧ ∀ g ∈ grafts, g.path ∈ visited.map (·.path) := by
  have hordered := Tree.sites_ordered parent0
  rw [hsites, List.pairwise_append] at hordered
  have hthere : ∀ path ∈ visited.map (·.path), (parent0.at? path).isSome := by
    intro path hpath
    obtain ⟨site, hsite, rfl⟩ := List.mem_map.mp hpath
    have hmem : site ∈ parent0.sites := hsites ▸ List.mem_append_left later hsite
    rw [Tree.at?_of_mem_sites hmem]
    rfl
  obtain ⟨child, grafts, s', hrun, hchild, hgrafts⟩ := runFrom_swapAlong
    (Offspring.refl b parent0 parent1) (List.pairwise_map.mpr hordered.1) hthere (fun _ _ => nofun) s
  refine ⟨child, grafts, s', hrun, hchild, ?_⟩
  intro g hg
  rcases hgrafts g hg with hnone | hpath
  · cases hnone
  · exact hpath

/-- The turn of a site, after the visits of others.  The site is neither one that has been visited nor below
one, which are the only ones where something may have been swapped in; it is there with the node it has in
the first parent, and it is visited.  The child is left as it is or gets a subtree of the second parent as
a graft at the site, and it stays one on the way. -/
structure Turn (b : Budget) (p : Float) (parent0 parent1 : Tree) (visited : List Site) (site : Site)
    (before : Tree) (s : σ) (after : Tree) (s' : σ) : Prop where
  fresh : ∀ v ∈ visited, ¬v.path <+: site.path
  standing : ∃ here, before.at? site.path = some here ∧ here.top = site.tree.top ∧
    Visited b p parent1.postorder before ⟨site.path, here⟩ s after s'
  swapped : after = before ∨ ∃ donor path, parent1.at? path = some donor ∧
    Tree.Grafted [⟨site.path, donor⟩] before after
  offspring : ∃ grafts, Offspring b parent0 parent1 grafts after ∧
    ∀ g ∈ grafts, g.path ∈ (visited ++ [site]).map (·.path)

/-- A site is neither one that is listed before it nor below one. -/
theorem fresh_of_sites {visited later : List Site} {site : Site}
    (hsites : parent0.sites = visited ++ site :: later) : ∀ v ∈ visited, ¬v.path <+: site.path := by
  intro v hv
  have hordered := Tree.sites_ordered parent0
  rw [hsites, List.pairwise_append] at hordered
  exact hordered.2.2 v hv site List.mem_cons_self

/-- **With grafts at sites that are listed before it, a site is there** with its node by itself. -/
theorem Offspring.standing {grafts visited later : List Site} {site : Site}
    (h : Offspring b parent0 parent1 grafts child) (hsites : parent0.sites = visited ++ site :: later)
    (hgrafts : ∀ g ∈ grafts, g.path ∈ visited.map (·.path)) :
    (child.at? site.path).map Tree.top = some site.tree.top := by
  have hfree : ∀ g ∈ grafts, ¬g.path <+: site.path := by
    intro g hg
    obtain ⟨v, hv, hpath⟩ := List.mem_map.mp (hgrafts g hg)
    exact hpath ▸ fresh_of_sites hsites v hv
  have hmem : site ∈ parent0.sites := by simp [hsites]
  rw [h.grafted.elsewhere site.path hfree, Tree.at?_of_mem_sites hmem, Option.map_some]

/-- **Every site has its turn** in a run of visits. -/
theorem runFrom_turn {visited later : List Site} {site : Site} {before : Tree} {s s₁ : σ}
    (hsites : parent0.sites = visited ++ site :: later)
    (hfirst : (swapAlong b p parent1.postorder (visited.map (·.path)) parent0).runFrom s =
      (.ok before, s₁)) :
    ∃ after s₂, (swapAlong b p parent1.postorder [site.path] before).runFrom s₁ = (.ok after, s₂) ∧
      Turn b p parent0 parent1 visited site before s₁ after s₂ := by
  have hsites' : parent0.sites = (visited ++ [site]) ++ later := by
    rw [hsites, List.append_assoc, List.singleton_append]
  obtain ⟨after, grafts, s₂, hsecond, hafter, hgrafts⟩ :=
    runFrom_swapAlong_sites (b := b) (p := p) parent1 hsites' s
  obtain ⟨before', grafts₁, s₁', hfirst', hbefore, hgrafts₁⟩ :=
    runFrom_swapAlong_sites (b := b) (p := p) parent1 hsites s
  obtain ⟨hsame, rfl⟩ := Prod.mk.inj (hfirst.symm.trans hfirst')
  obtain rfl := Except.ok.inj hsame
  rw [List.map_append, runFrom_swapAlong_append _ hfirst] at hsecond
  obtain ⟨here, hat, htop⟩ := Option.map_eq_some_iff.mp (hbefore.standing hsites hgrafts₁)
  obtain ⟨after', s₂', hvisit, hvisited⟩ := runFrom_visit (b := b) (p := p)
    (Tree.postorder_ne_nil parent1) hat s₁
  obtain ⟨hsame, rfl⟩ := Prod.mk.inj (hvisit.symm.trans hsecond)
  obtain rfl := Except.ok.inj hsame
  refine ⟨after', s₂', hvisit, fresh_of_sites hsites, ⟨here, hat, htop, hvisited⟩, ?_, grafts, hafter,
    hgrafts⟩
  rcases hvisited.outcome with rfl | ⟨donor, hdonor, -, rfl⟩
  · exact .inl rfl
  · obtain ⟨path, hpath⟩ := Tree.exists_at?_of_mem_postorder hdonor
    exact .inr ⟨donor, path, hpath, Tree.grafted_replace donor hat⟩

end Crossover

/-! ## 4. Chains -/

/-- A function that takes one child or more, over as many of its kind as are asked for and a variable. -/
def Tree.chain : Nat → Tree
  | 0 => .variable (.forVariable "x")
  | n + 1 => .node (.idle "many" 1 100 (by decide)) [chain n]

theorem Tree.everywhere_chain {P : NodeCondition} (hbottom : P (some .variable) (.forVariable "x") 0)
    (habove : P none (.idle "many" 1 100 (by decide)) 1) : ∀ n, (Tree.chain n).Everywhere P
  | 0 => everywhere_variable.mpr hbottom
  | n + 1 => everywhere_node.mpr
    ⟨habove, List.forall_mem_singleton.mpr (everywhere_chain hbottom habove n)⟩

theorem Tree.fits_chain (n : Nat) : (Tree.chain n).Fits :=
  everywhere_chain (P := fun _ s n => s.accepts n = true) rfl rfl n

theorem Tree.made_chain (n : Nat) : (Tree.chain n).Made := fun u hu =>
  u.sorted_iff.mpr (everywhere_chain (P := fun k s _ => s.kind = k) rfl rfl n u hu)

end FormulaEvolution
