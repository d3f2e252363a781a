/-
# Another node in the place of one

Two mutators keep the shape of a tree and change one node at most.  One of them tries inner nodes until a
function is found that can take over the children of a node.  The other one draws a leaf: a constant
moves, and a variable points at another input if there is one.

* `Mutator.alternatives_iff`: which functions can take over;
* `Recast.altered`, `Adjusted.of_constant`, `Adjusted.of_variable`: what has become of a tree is the tree
  itself, or the tree with one node altered (`Tree.Altered`);
* `Recast.copyBecomes`, `Adjusted.copyBecomes`: where trees are changed in place, it is one step on a copy;
* `Mutator.node_changed`: both mutators, for every tree that fits.

A constant moves by one draw from the span between the range and its negative.  The draw is a share of the
width of the span, so it keeps the range exactly if the width is finite (`Number.spread_within_iff`), and a
range of more than half of the largest double has no finite width (`Mutator.move_beyond_range`).
-/
import FormulaEvolution.Proofs.Arena.Exchange
import FormulaEvolution.Proofs.Arena.Planting
import FormulaEvolution.Proofs.Operators.Mutation
import FormulaEvolution.Proofs.Operators.Swaps
import FormulaEvolution.Proofs.Random.Spread

namespace FormulaEvolution

/-- A constant by itself. -/
def Tree.single (v : Float) : Tree := .constant (.forConstant "Constant" (-1.0, 1.0)) v

theorem Tree.fits_single (v : Float) : (Tree.single v).Fits :=
  everywhere_constant (P := fun _ s n => s.accepts n = true) |>.mpr rfl

/-- A constant by itself has one place. -/
theorem Tree.path_of_single {p : Path} {v : Float} {u : Tree} (h : (Tree.single v).at? p = some u) :
    p = [] ∧ u = Tree.single v := by
  cases p with
  | nil => exact ⟨rfl, (Option.some.inj h).symm⟩
  | cons i p => cases h

/-- What a change of a node does to a tree in place: the node gets another symbol, or a constant another
value; or nothing is done. -/
inductive Arena.Retouched (a : Arena) : Arena → Prop
  | kept : Retouched a a
  | renamed {j : NodeId} {s : Symbol} {b : Arena} : a.changeSymbol j s = .ok b → Retouched a b
  | moved {j : NodeId} {value : Float} : Retouched a (a.setValue j value)

namespace Mutator

variable {σ : Type} [RandomSource σ] {g : Grammar} {t t' : Tree}

/-! ## 1. Functions -/

/-- **What can take over the children of a node**: an enabled function of another name that takes as many. -/
theorem alternatives_iff {u : Tree} {f : Symbol} : f ∈ alternatives g u ↔
    f ∈ g.functions ∧ f.name ≠ u.symbol.name ∧ f.accepts u.children.length = true := by
  simp [alternatives, List.mem_filter]

theorem children_relabel (f : Symbol) (u : Tree) : (u.relabel f).children = u.children := by
  cases u <;> rfl

theorem symbol_relabel (f : Symbol) (u : Tree) : (u.relabel f).symbol = f := by
  cases u <;> rfl

/-- A tree whose candidates have been tried is the same tree, or one of its inner nodes has another
function. -/
theorem Recast.altered {attempts : Nat} (h : Recast g t attempts (t.sites.filter (·.isInner)) t') :
    t' = t ∨ ∃ p u f, Tree.Altered p u (u.relabel f) t t' ∧ u.children ≠ [] ∧
      f ∈ g.functions ∧ f.name ≠ u.symbol.name ∧ f.accepts u.children.length = true := by
  cases h with
  | kept _ => exact .inl rfl
  | @changed site f hsite hf =>
    obtain ⟨hat, hinner⟩ := mem_inner hsite
    refine .inr ⟨site.path, site.tree, f, ?_, ?_, alternatives_iff.mp hf⟩
    · exact Tree.altered_replace hat (children_relabel f site.tree)
    · simpa [Site.isInner, Tree.isLeaf] using hinner

/-- **With an attempt for every inner node, a tree stays the same exactly if none has an alternative.** -/
theorem Recast.kept_iff {attempts : Nat} (h : Recast g t attempts (t.sites.filter (·.isInner)) t')
    (hcount : (t.sites.filter (·.isInner)).length ≤ attempts) :
    t' = t ↔ ∀ p u f, t.at? p = some u → u.children ≠ [] → f ∈ g.functions →
      f.accepts u.children.length = true → f.name = u.symbol.name := by
  cases h with
  | kept hnone =>
    refine iff_of_true rfl fun p u f hat hchildren hf haccepts => ?_
    have hsite : (⟨p, u⟩ : Site) ∈ t.sites.filter (·.isInner) := by
      refine List.mem_filter.mpr ⟨Tree.mem_sites_of_at? hat, ?_⟩
      simpa [Site.isInner, Tree.isLeaf] using hchildren
    by_contra hname
    have hmem : f ∈ alternatives g u := alternatives_iff.mpr ⟨hf, hname, haccepts⟩
    rw [hnone hcount _ hsite] at hmem
    cases hmem
  | @changed site f hsite hf =>
    obtain ⟨hat, hinner⟩ := mem_inner hsite
    obtain ⟨hfunction, hname, haccepts⟩ := alternatives_iff.mp hf
    have hchanged : site.tree.relabel f ≠ site.tree := by
      intro heq
      rw [← heq, symbol_relabel] at hname
      exact hname rfl
    have hne := (Tree.altered_replace hat (children_relabel f site.tree)).ne hchanged
    refine iff_of_false hne fun hall => hname ?_
    refine hall site.path site.tree f hat ?_ hfunction haccepts
    simpa [Site.isInner, Tree.isLeaf] using hinner

/-! ## 2. Leaves -/

/-- A range is not negative, whatever it is made of. -/
theorem clampRange_nonneg (range : Float) : 0.0 ≤ clampRange range := by
  rw [clampRange, greater]
  split
  · next hpos => exact Number.le_of_less hpos
  · decide +kernel

theorem runFrom_changeTerminal (range : Float) (g : Grammar) (t : Tree) (s : σ) :
    ((Mutator.changeTerminal range).mutate (some g) (some t)).runFrom s =
      (changeLeaf (clampRange range) (some g) t).runFrom s := rfl

theorem clampRange_eq {range : Float} (h : 0.0 < range) : clampRange range = range := if_pos h

/-- What is drawn from a span around zero is a share of its width. -/
theorem runFrom_uniform (r : Float) (s : σ) : (Draws.uniform (-r) r).runFrom s =
    (.ok (Number.spread r (RandomSource.unit s).1), (RandomSource.unit s).2) := rfl

section Leaf

variable {range : Float} {s₁ s' : σ} {p : Path}

/-- A constant that has been drawn has moved by one draw, and is the only node that is another one. -/
theorem Adjusted.of_constant {f : Symbol} {v : Float} (hat : t.at? p = some (.constant f v))
    (h : Adjusted range g t s₁ ⟨p, .constant f v⟩ t' s') :
    ∃ delta, (Draws.uniform (-range) range).runFrom s₁ = (.ok delta, s') ∧
      Tree.Altered p (.constant f v) (.constant f (v + delta)) t t' := by
  cases h with
  | moved hdelta => exact ⟨_, hdelta, Tree.altered_replace hat rfl⟩

/-- A variable that has been drawn points at another input, unless there is none. -/
theorem Adjusted.of_variable {f : Symbol} (hat : t.at? p = some (.variable f))
    (h : Adjusted range g t s₁ ⟨p, .variable f⟩ t' s') :
    (t' = t ∧ ∀ other ∈ g.variableSymbols, other.name = f.name) ∨
      ∃ other ∈ g.variableSymbols, other.name ≠ f.name ∧
        Tree.Altered p (.variable f) (.variable other) t t' := by
  cases h with
  | turned hother hname => exact .inr ⟨_, hother, hname, Tree.altered_replace hat rfl⟩
  | alone hnone => exact .inl ⟨rfl, hnone⟩

theorem Adjusted.sameShape {site : Site} (hat : t.at? site.path = some site.tree)
    (h : Adjusted range g t s₁ site t' s') : Tree.SameShape t t' := by
  cases h with
  | moved _ => exact Tree.Altered.sameShape (Tree.altered_replace hat rfl)
  | turned _ _ => exact Tree.Altered.sameShape (Tree.altered_replace hat rfl)
  | alone _ => exact .refl t
  | bare => exact .refl t

end Leaf

/-! ## 3. In place -/

section InPlace

variable {p : Path} {u : Tree} {f : Symbol}

theorem copyBecomes_kept (t : Tree) : Arena.CopyBecomes (fun _ => Arena.Retouched) t t :=
  Arena.copyBecomes_of_step (Nat.le_refl _) fun {a} {_} {i} _ hroot hstands =>
    ⟨a, i, [], .kept, ⟨hroot, hstands, fun _ _ _ => rfl, fun _ _ => rfl, rfl⟩, .refl, nofun⟩

theorem copyBecomes_relabel (hat : t.at? p = some u) (haccepts : f.accepts u.children.length = true) :
    Arena.CopyBecomes (fun _ => Arena.Retouched) t (Tree.replace (u.relabel f) p t) := by
  refine Arena.copyBecomes_of_step (Tree.depth_replace_eq hat (Tree.depth_relabel f u)).le
    fun {a} {_} {i} hforest hroot hstands => ?_
  obtain ⟨j, b, hrun, hbecame⟩ := hstands.changeSymbol_at hforest hroot hat haccepts
  exact ⟨b, i, [], .renamed hrun, hbecame, .refl, nofun⟩

theorem copyBecomes_constant {v : Float} (hat : t.at? p = some (.constant f v)) (w : Float) :
    Arena.CopyBecomes (fun _ => Arena.Retouched) t (Tree.replace (.constant f w) p t) := by
  have hdepth : (Tree.constant f w).depth = (Tree.constant f v).depth := rfl
  refine Arena.copyBecomes_of_step (Tree.depth_replace_eq hat hdepth).le
    fun {a} {_} {i} hforest hroot hstands => ?_
  obtain ⟨j, hbecame⟩ := hstands.setValue_at hforest hroot hat w
  exact ⟨_, i, [], .moved, hbecame, .refl, nofun⟩

/-- **Another function is one step on a copy of the tree.** -/
theorem Recast.copyBecomes {attempts : Nat} (h : Recast g t attempts (t.sites.filter (·.isInner)) t') :
    Arena.CopyBecomes (fun _ => Arena.Retouched) t t' := by
  cases h with
  | kept _ => exact copyBecomes_kept t
  | changed hsite hf =>
    exact copyBecomes_relabel (mem_inner hsite).1 (alternatives_iff.mp hf).2.2

/-- **Another leaf is one step on a copy of the tree.** -/
theorem Adjusted.copyBecomes {range : Float} {s₁ s' : σ} {site : Site}
    (hat : t.at? site.path = some site.tree) (h : Adjusted range g t s₁ site t' s') :
    Arena.CopyBecomes (fun _ => Arena.Retouched) t t' := by
  cases h with
  | moved _ => exact copyBecomes_constant hat _
  | turned hother _ => exact copyBecomes_relabel hat (offers_variable hother).accepts
  | alone _ => exact copyBecomes_kept t
  | bare => exact copyBecomes_kept t

end InPlace

/-! ## 4. Both mutators -/

/-- **A change of a node changes one node at most.**  For every tree that fits, every grammar, number of
attempts and range, and every source whose doubles are between zero and one, both mutators return a tree
of the same shape that fits.

The first one returns the tree itself, or the tree with another function at one inner node: an enabled one
of another name that takes the children.  If there is an attempt for every inner node, it is the tree itself
exactly if no inner node has such a function.

The second one draws a leaf.  A constant moves by one draw, the last that is made, and this is within the
range exactly if the width from the negative of the range to the range is finite.  A variable becomes
another enabled one if there is one, and else the tree stays the same, as it does for any other leaf.

Where trees are changed in place, either is one step on a copy of the tree, and leaves the tree itself and
all other nodes as they were. -/
theorem node_changed (hσ : RandomSource.WithinUnit σ) (ht : t.Fits) (g : Grammar) (attempts : Int)
    (range : Float) (s : σ) :
    (∃ t' s', ((Mutator.changeNodeType attempts).mutate (some g) (some t)).runFrom s = (.ok t', s') ∧
      t'.Fits ∧ Tree.SameShape t t' ∧
      (t' = t ∨ ∃ p u f, Tree.Altered p u (u.relabel f) t t' ∧ u.children ≠ [] ∧
        f ∈ g.functions ∧ f.name ≠ u.symbol.name ∧ f.accepts u.children.length = true) ∧
      (((t.sites.filter (·.isInner)).length : Int) ≤ max 1 attempts →
        (t' = t ↔ ∀ p u f, t.at? p = some u → u.children ≠ [] → f ∈ g.functions →
          f.accepts u.children.length = true → f.name = u.symbol.name)) ∧
      Arena.CopyBecomes (fun _ => Arena.Retouched) t t') ∧
    ∃ site s₁ t' s', (Draws.choose (t.sites.filter (!·.isInner))).runFrom s = (.ok site, s₁) ∧
      t.at? site.path = some site.tree ∧ site.tree.children = [] ∧
      ((Mutator.changeTerminal range).mutate (some g) (some t)).runFrom s = (.ok t', s') ∧
      t'.Fits ∧ Tree.SameShape t t' ∧
      (∀ f v, site.tree = .constant f v → ∃ delta,
        (Draws.uniform (-clampRange range) (clampRange range)).runFrom s₁ = (.ok delta, s') ∧
        Tree.Altered site.path (.constant f v) (.constant f (v + delta)) t t' ∧
        ((-clampRange range ≤ delta ∧ delta ≤ clampRange range) ↔
          Number.isFinite (clampRange range - -clampRange range) = true)) ∧
      (∀ f, site.tree = .variable f →
        (t' = t ∧ ∀ other ∈ g.variableSymbols, other.name = f.name) ∨
          ∃ other ∈ g.variableSymbols, other.name ≠ f.name ∧
            Tree.Altered site.path (.variable f) (.variable other) t t') ∧
      (∀ f cs, site.tree = .node f cs → t' = t) ∧ Arena.CopyBecomes (fun _ => Arena.Retouched) t t' := by
  constructor
  · obtain ⟨t', s', hrun, hrecast⟩ := returns_changeFunction attempts g t s
    refine ⟨t', s', hrun, hrecast.everywhere g.supports_accepts ht, ?_, hrecast.altered, ?_,
      hrecast.copyBecomes⟩
    · rcases hrecast.altered with rfl | ⟨p, u, f, haltered, -⟩
      · exact .refl t'
      · exact haltered.sameShape
    · intro hcount
      exact hrecast.kept_iff (by omega)
  · obtain ⟨⟨p, u⟩, s₁, t', s', hdraw, hat, hleaf, hrun, hadjusted⟩ :=
      runFrom_changeLeaf (clampRange range) g t s
    have hchildren : u.children = [] := by simpa [Site.isInner, Tree.isLeaf] using hleaf
    refine ⟨⟨p, u⟩, s₁, t', s', hdraw, hat, hchildren, hrun,
      hadjusted.everywhere g.supports_accepts ht hat, hadjusted.sameShape hat, ?_, ?_, ?_,
      hadjusted.copyBecomes hat⟩
    · rintro f v rfl
      obtain ⟨delta, hdelta, haltered⟩ := hadjusted.of_constant hat
      refine ⟨delta, hdelta, haltered, ?_⟩
      rw [runFrom_uniform, Prod.mk.injEq, Except.ok.injEq] at hdelta
      obtain ⟨hlow, hhigh⟩ := hσ s₁
      rw [← hdelta.1]
      exact Number.spread_within_iff (clampRange_nonneg range) hlow hhigh
    · rintro f rfl
      exact hadjusted.of_variable hat
    · rintro f cs rfl
      cases hadjusted
      rfl

/-- Among the assorted functions there is another one for the nodes of a chain, also in an arena; and a
constant by itself moves by one at most if that is the range. -/
theorem node_changed_chain :
    (∃ t' s', ((Mutator.changeNodeType 10).mutate (some .assorted) (some (Tree.chain 2))).runFrom
      (Twister.ofSeed 1) = (.ok t', s') ∧ t'.Fits ∧ t' ≠ Tree.chain 2 ∧
      ∃ (a b : Arena) (r : TreeId) (i : NodeId), a.Sound ∧ a.toTree? r = .ok (some (Tree.chain 2)) ∧
        (a.copyTree r).2.Retouched b ∧ a.Beside b (a.copyTree r).1 i t') ∧
    ∃ v s', ((Mutator.changeTerminal 1.0).mutate (some .assorted) (some (Tree.single 2.0))).runFrom
      (Twister.ofSeed 1) = (.ok (Tree.single (2.0 + v)), s') ∧ -1.0 ≤ v ∧ v ≤ 1.0 := by
  constructor
  · obtain ⟨⟨t', s', hrun, hfits, -, -, hkept, hplace⟩, -⟩ :=
      node_changed Twister.withinUnit (Tree.fits_chain 2) .assorted 10 1.0 (Twister.ofSeed 1)
    obtain ⟨a, r, hsound, hread⟩ := Arena.exists_read (Tree.made_chain 2)
    obtain ⟨b, i, hretouched, hbeside, -⟩ := hplace a r hsound hread
    refine ⟨t', s', hrun, hfits, fun heq => ?_, a, b, r, i, hsound, hread, hretouched, hbeside⟩
    have hfunction : Symbol.idle "perhaps" 0 3 (by decide) ∈ Grammar.assorted.functions := by
      simp [Grammar.functions, Grammar.enabledSymbols, Grammar.assorted, Symbol.isTerminal, Symbol.idle]
    have hname := (hkept (by decide)).mp heq [] (Tree.chain 2) _ rfl (List.cons_ne_nil _ _) hfunction rfl
    exact absurd hname (by decide)
  · obtain ⟨-, ⟨p, u⟩, s₁, t', s', hdraw, hat, -, hrun, -, -, hmoved, -⟩ :=
      node_changed Twister.withinUnit (Tree.fits_single 2.0) .assorted 10 1.0 (Twister.ofSeed 1)
    obtain ⟨rfl, rfl⟩ := Tree.path_of_single hat
    obtain ⟨v, -, haltered, hwithin⟩ := hmoved _ _ rfl
    rw [clampRange_eq (by decide +kernel)] at hwithin
    refine ⟨v, s', ?_, hwithin.mpr (by decide +kernel)⟩
    rw [hrun, Option.some.inj haltered.is]
    rfl

/-- A constant in a range of more than half of the largest double: it moves, and not within the range. -/
theorem move_beyond_range : ∃ v s',
    ((Mutator.changeTerminal 1.7e308).mutate (some .assorted) (some (Tree.single 0.0))).runFrom
        (Twister.ofSeed 1) = (.ok (Tree.single (0.0 + v)), s') ∧
      ¬(-1.7e308 ≤ v ∧ v ≤ 1.7e308) := by
  obtain ⟨⟨p, u⟩, s₁, t', s', -, hat, -, hrun, hadjusted⟩ :=
    runFrom_changeLeaf (clampRange 1.7e308) .assorted (Tree.single 0.0) (Twister.ofSeed 1)
  obtain ⟨rfl, rfl⟩ := Tree.path_of_single hat
  obtain ⟨v, hv, haltered⟩ := hadjusted.of_constant hat
  refine ⟨v, s', ?_, fun hwithin => ?_⟩
  · rw [← show t' = Tree.single (0.0 + v) from Option.some.inj haltered.is]
    exact (runFrom_changeTerminal _ _ _ _).trans hrun
  rw [clampRange_eq (by decide +kernel), runFrom_uniform, Prod.mk.injEq, Except.ok.injEq] at hv
  obtain ⟨hlow, hhigh⟩ := Twister.withinUnit s₁
  have hfinite := (Number.spread_within_iff (by decide +kernel) hlow hhigh).mp (hv.1 ▸ hwithin)
  have hwidth : Number.isFinite (1.7e308 - -1.7e308) = false := by decide +kernel
  rw [hwidth] at hfinite
  cases hfinite

end Mutator
end FormulaEvolution
