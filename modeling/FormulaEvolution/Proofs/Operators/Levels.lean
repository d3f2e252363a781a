/-
# Exchanges on one level

The one-point crossover draws a level that is below the root and above the lowest one of the shallower
parent, one site of each parent on that level, and puts the second one's subtree in place of the first
one's if there is room (`Crossover.onePoint_exchange`).

The sites of a level are found by going down from the root level by level.  They are all places whose
paths have so many steps (`Tree.mem_sitesAt_iff`), and there is one on every level above the depth of
the tree (`Tree.sitesAt_ne_nil`), so that neither of the two draws is from nothing.  Since the level is
not that of the root, the root is left alone.
-/
import FormulaEvolution.Proofs.Operators.Donors

namespace FormulaEvolution

/-! ## 1. Levels -/

namespace Tree

/-- **The sites of a level are all places with so many steps**, and the subtrees that stand there. -/
theorem mem_sitesAt_iff {t : Tree} {level : Nat} {site : Site} :
    site ∈ t.sitesAt level ↔ t.at? site.path = some site.tree ∧ site.level = level := by
  refine ⟨at?_of_mem_sitesAt, ?_⟩
  rintro ⟨hat, hlevel⟩
  induction level generalizing site with
  | zero =>
    have hpath : site.path = [] := List.length_eq_zero_iff.mp hlevel
    rw [hpath] at hat
    obtain rfl : site = ⟨[], t⟩ := by
      cases site
      simp_all
    exact List.mem_singleton.mpr rfl
  | succ level ih =>
    -- The last step of the path goes from a site one level higher to one of its children.
    have hne : site.path ≠ [] := List.ne_nil_of_length_eq_add_one hlevel
    obtain ⟨init, i, hpath⟩ : ∃ init i, site.path = init ++ [i] :=
      ⟨_, _, (List.dropLast_concat_getLast hne).symm⟩
    rw [hpath, at?_append, Option.bind_eq_some_iff] at hat
    obtain ⟨parent, hparent, hchild⟩ := hat
    have hlength : init.length = level := by
      simpa [Site.level, hpath] using hlevel
    have habove : ⟨init, parent⟩ ∈ t.sitesAt level := ih hparent hlength
    have hindex : parent.children[i]? = some site.tree := by
      simpa [at?] using hchild
    obtain ⟨hi, hsite⟩ := List.getElem?_eq_some_iff.mp hindex
    refine List.mem_flatMap.mpr ⟨⟨init, parent⟩, habove, List.mem_mapIdx.mpr ⟨i, hi, ?_⟩⟩
    rw [hsite, ← hpath]

/-- A replacement below the root keeps the symbol of the root. -/
theorem symbol_replace (new t : Tree) {p : Path} (hp : p ≠ []) :
    (replace new p t).symbol = t.symbol := by
  have hroot : ¬p <+: [] := fun h => hp (List.prefix_nil.mp h)
  exact symbol_of_top (Option.some.inj (top_at?_replace new hroot (t := t)))

end Tree

/-! ## 2. The exchange -/

namespace Crossover

variable {σ : Type} [RandomSource σ] {b : Budget} {parent0 parent1 donor : Tree} {point : Site}

/-- A tree with a donor in place of what stands at a site if there is room for it, and the tree itself if
there is not. -/
def exchanged (b : Budget) (parent : Tree) (point : Site) (donor : Tree) : Tree :=
  if b.HasRoom parent point donor then Tree.replace donor point.path parent else parent

theorem bounds_exchanged (hat : parent0.at? point.path = some point.tree) :
    b.Bounds parent0 (exchanged b parent0 point donor) := by
  unfold exchanged
  split
  · next hroom => exact hroom.bounds hat
  · exact .refl b parent0

theorem everywhere_exchanged {P : Tree.NodeCondition} (hat : parent0.at? point.path = some point.tree)
    (h0 : parent0.Everywhere P) (hdonor : donor.Everywhere P) :
    (exchanged b parent0 point donor).Everywhere P := by
  unfold exchanged
  split
  · exact Tree.everywhere_replace h0 hdonor hat
  · exact h0

/-- An exchange below the root keeps the symbol of the root. -/
theorem symbol_exchanged (hne : point.path ≠ []) :
    (exchanged b parent0 point donor).symbol = parent0.symbol := by
  unfold exchanged
  split
  · exact Tree.symbol_replace donor parent0 hne
  · rfl

/-- A site of each parent on a level that is below the roots and that both parents have. -/
structure Counterparts (parent0 parent1 : Tree) (level : Nat) (point donor : Site) : Prop where
  below_root : 1 ≤ level
  shared : level < min parent0.depth parent1.depth
  at_point : parent0.at? point.path = some point.tree
  level_point : point.level = level
  at_donor : parent1.at? donor.path = some donor.tree
  level_donor : donor.level = level

/-- The site of the first parent is below the root. -/
theorem Counterparts.path_ne_nil {level : Nat} {donor : Site}
    (h : Counterparts parent0 parent1 level point donor) : point.path ≠ [] := by
  intro hnil
  have hlevel : point.path.length = level := h.level_point
  rw [hnil, List.length_nil] at hlevel
  exact absurd h.below_root (by omega)

/-- **A level and a site of each parent on it are drawn**, and the exchange is made if there is room. -/
theorem runFrom_crossOnePoint (b : Budget) (hdeep : 1 < min parent0.depth parent1.depth) (s : σ) :
    ∃ level s₁ point s₂ donor s₃,
      (Draws.span 1 ((min parent0.depth parent1.depth : Nat) : Int)).runFrom s =
        (.ok ((level : Nat) : Int), s₁) ∧
      (Draws.choose (parent0.sitesAt level)).runFrom s₁ = (.ok point, s₂) ∧
      (Draws.choose (parent1.sitesAt level)).runFrom s₂ = (.ok donor, s₃) ∧
      Counterparts parent0 parent1 level point donor ∧
      (crossOnePoint b parent0 parent1).runFrom s = (.ok (exchanged b parent0 point donor.tree), s₃) := by
  obtain ⟨i, s₁, hspan, hlow, hhigh⟩ := Draws.returns_span (σ := σ)
    (show (1 : Int) < (min parent0.depth parent1.depth : Nat) by omega) s
  obtain ⟨level, rfl⟩ : ∃ level : Nat, i = level := ⟨i.toNat, by omega⟩
  have hne0 : parent0.sitesAt level ≠ [] := Tree.sitesAt_ne_nil (by omega)
  have hne1 : parent1.sitesAt level ≠ [] := Tree.sitesAt_ne_nil (by omega)
  obtain ⟨point, s₂, hpoint, hmem0⟩ := Draws.returns_choose hne0 s₁
  obtain ⟨donor, s₃, hdonor, hmem1⟩ := Draws.returns_choose hne1 s₂
  obtain ⟨hat0, hlevel0⟩ := Tree.mem_sitesAt_iff.mp hmem0
  obtain ⟨hat1, hlevel1⟩ := Tree.mem_sitesAt_iff.mp hmem1
  have hpair : Counterparts parent0 parent1 level point donor :=
    ⟨by omega, by omega, hat0, hlevel0, hat1, hlevel1⟩
  refine ⟨level, s₁, point, s₂, donor, s₃, hspan, hpoint, hdonor, hpair, ?_⟩
  rw [crossOnePoint]
  simp only [if_neg (Nat.not_le_of_lt hdeep)]
  rw [Draws.runFrom_bind_ok hspan, Int.toNat_natCast, Draws.runFrom_bind_ok hpoint,
    Draws.runFrom_bind_ok hdonor, ← hlevel0, exchanged]
  by_cases hroom : b.HasRoom parent0 point donor.tree
  · rw [if_pos hroom, if_pos (Budget.admits_iff.mpr hroom), Tree.put_of_at? donor.tree hat0]
    rfl
  · rw [if_neg hroom, if_neg fun hadmits => hroom (Budget.admits_iff.mp hadmits)]
    rfl

/-- If a parent has one level only, nothing is drawn. -/
theorem runFrom_crossOnePoint_shallow (b : Budget) (h : ¬1 < min parent0.depth parent1.depth) (s : σ) :
    (crossOnePoint b parent0 parent1).runFrom s = (.ok parent0, s) := by
  rw [crossOnePoint, if_pos (Nat.le_of_not_lt h), Draws.runFrom_pure]

end Crossover
end FormulaEvolution
