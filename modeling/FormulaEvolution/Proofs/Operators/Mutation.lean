/-
# What mutators return

Every mutator returns a tree from every random source, provided it has a grammar with a terminal
and can create trees where it needs to (`Mutator.returns_mutate`).  The tree keeps the bounds of the
budget: no mutator makes a tree longer or deeper than both the budget and the tree it was given.

A condition on all nodes passes from a tree to the changed one if it holds of every node that the
grammar offers and does not break when a node loses a child that it can spare
(`Grammar.Supports`).  Fitting, and being made of candidates, are two such conditions.

Each mutator has its own reason for the bounds:

* the fresh subtree gets what the budget leaves, and one node on one level is never more than what
  stood there;
* another function or another leaf leaves the shape alone;
* an inserted node and its siblings are counted against what is spare, and its level against the
  levels below;
* a removal makes the tree shorter.
-/
import FormulaEvolution.Mutation
import FormulaEvolution.Proofs.Operators.Bounds
import FormulaEvolution.Proofs.Operators.Creation

namespace FormulaEvolution

/-! ## 1. Conditions that mutations keep -/

/-- A condition that every node on offer satisfies, and that a node keeps when it loses a child
that it can spare. -/
structure Grammar.Supports (g : Grammar) (P : Tree.NodeCondition) : Prop where
  offers : ∀ k s n, g.Offers k s n → P k s n
  fewer : ∀ k s n, P k s n → s.least < n → P k s (n - 1)

theorem Symbol.accepts_pred {s : Symbol} {n : Nat} (h : s.accepts n = true) (hn : s.least < n) :
    s.accepts (n - 1) = true := by
  simp only [accepts, Bool.and_eq_true, decide_eq_true_eq] at *
  omega

/-- Being made of candidates is kept. -/
theorem Grammar.supports_offers (g : Grammar) : g.Supports g.Offers where
  offers := fun _ _ _ h => h
  fewer := fun _ _ _ h hn => ⟨Symbol.accepts_pred h.accepts hn, h.enabled, h.kind⟩

/-- So are the bounds on how many children nodes have. -/
theorem Grammar.supports_accepts (g : Grammar) : g.Supports fun _ s n => s.accepts n = true where
  offers := fun _ _ _ h => h.accepts
  fewer := fun _ _ _ => Symbol.accepts_pred

/-! ## 2. Trees of the same shape -/

namespace Tree

@[simp] theorem length_relabel (s : Symbol) (t : Tree) : (t.relabel s).length = t.length := by
  cases t <;> simp only [relabel, length]

@[simp] theorem depth_relabel (s : Symbol) (t : Tree) : (t.relabel s).depth = t.depth := by
  cases t <;> simp only [relabel, depth]

/-- Another symbol at the root concerns the root alone. -/
theorem everywhere_relabel {P : NodeCondition} {s : Symbol} : ∀ {t : Tree},
    Everywhere P t → P t.kind? s t.children.length → Everywhere P (t.relabel s)
  | .constant .., _, h => everywhere_constant.mpr h
  | .variable _, _, h => everywhere_variable.mpr h
  | .node _ _, ht, h => everywhere_node.mpr ⟨h, (everywhere_node.mp ht).2⟩

/-- Every tree has a leaf. -/
theorem exists_leaf_site : ∀ t : Tree, ∃ site ∈ t.sites, site.isInner = false
  | .constant s v => ⟨⟨[], .constant s v⟩, by simp [sites], rfl⟩
  | .variable s => ⟨⟨[], .variable s⟩, by simp [sites], rfl⟩
  | .node s [] => ⟨⟨[], .node s []⟩, by simp [sites], rfl⟩
  | .node s (c :: cs) => by
    obtain ⟨site, hsite, hleaf⟩ := exists_leaf_site c
    refine ⟨site.below 0, ?_, hleaf⟩
    simp only [sites, sitesFrom, List.mem_append, List.mem_map]
    exact .inl (.inl ⟨site, hsite, rfl⟩)

end Tree

namespace Budget

variable {b : Budget} {t u new : Tree} {p : Path}

/-- **A replacement by something no longer and no deeper stays within the bounds**, whatever the
budget is. -/
theorem bounds_of_smaller (hat : t.at? p = some u) (hl : new.length ≤ u.length)
    (hd : new.depth ≤ u.depth) : b.Bounds t (Tree.replace new p t) := by
  have hlength := Tree.length_replace new hat
  have hdepth := Tree.depth_replace_le new hat
  have hlevel := Tree.level_add_depth_le hat
  exact ⟨by omega, by omega⟩

end Budget

/-! ## 3. One mutator after the other -/

namespace Mutator

variable {σ : Type} [RandomSource σ] {P : Tree.NodeCondition} {g : Grammar} {b : Budget}
  {t : Tree}

/-- A budget of one node and one level at least is what it is. -/
theorem atLeastOne_eq (hl : 1 ≤ b.maxLength) (hd : 1 ≤ b.maxDepth) : atLeastOne b = b := by
  rw [atLeastOne, Int.max_eq_right hl, Int.max_eq_right hd]

/-- How many nodes are left to a subtree: what the rest of the tree leaves of the budget, and one in
any case. -/
def lengthLeft (b : Budget) (t : Tree) (point : Site) : Int :=
  max 1 (b.maxLength - (t.length - point.tree.length : Int))

/-- How many levels are left to a subtree: those of the budget from its own level on, and one in any
case. -/
def levelsLeft (b : Budget) (point : Site) : Int := max 1 (b.maxDepth - point.level)

/-- **A site is drawn, and a tree that is created for what is left there takes the place of what
stands there.** -/
theorem runFrom_replaceSubtree {creator : Creator} (hc : creator ≠ .abstract)
    (hg : g.terminals ≠ []) (b : Budget) (t : Tree) (s : σ) :
    ∃ point s₁ fresh s', (Draws.choose t.sites).runFrom s = (.ok point, s₁) ∧
      t.at? point.path = some point.tree ∧
      (creator.createTree g (lengthLeft b t point) (levelsLeft b point)).runFrom s₁ =
        (.ok fresh, s') ∧
      g.Created (lengthLeft b t point).toNat (levelsLeft b point).toNat fresh ∧
      (replaceSubtree b creator g t).runFrom s = (.ok (Tree.replace fresh point.path t), s') := by
  obtain ⟨point, s₁, hdraw, hpoint⟩ := Draws.returns_choose (Tree.sites_ne_nil t) s
  have hat := Tree.at?_of_mem_sites hpoint
  obtain ⟨fresh, s', hcreate, hcreated⟩ := Creator.returns_createTree hc hg
    (Int.le_max_left 1 (b.maxLength - (t.length - point.tree.length : Int)))
    (Int.le_max_left 1 (b.maxDepth - point.level)) s₁
  refine ⟨point, s₁, fresh, s', hdraw, hat, hcreate, hcreated, ?_⟩
  rw [replaceSubtree, Draws.runFrom_bind_ok hdraw, Draws.runFrom_bind_ok hcreate,
    Draws.runFrom_ofExcept, Tree.put_of_at? fresh hat]

/-- **What is created for what is left keeps the bounds.**  Where nothing is left it is one node, which is
no more than what stood there. -/
theorem bounds_of_created {point : Site} {fresh : Tree} (hat : t.at? point.path = some point.tree)
    (h : g.Created (lengthLeft b t point).toNat (levelsLeft b point).toNat fresh) :
    b.Bounds t (Tree.replace fresh point.path t) := by
  have hl := h.length_le
  have hd := h.depth_le
  have hlength := Tree.length_replace fresh hat
  have hdepth := Tree.depth_replace_le fresh hat
  have hlevel := Tree.level_add_depth_le hat
  have hpos := Tree.length_pos point.tree
  have hpos' := Tree.depth_pos point.tree
  simp only [lengthLeft, levelsLeft, Site.level] at hl hd
  constructor
  · omega
  · omega

theorem returns_replaceSubtree {creator : Creator} (hc : creator ≠ .abstract)
    (hg : g.terminals ≠ []) (hP : g.Supports P) (ht : t.Everywhere P) :
    (replaceSubtree b creator g t : Draws σ Tree).Returns fun t' =>
      b.Bounds t t' ∧ t'.Everywhere P := by
  intro s
  obtain ⟨point, _, fresh, s', _, hat, _, hcreated, hrun⟩ := runFrom_replaceSubtree hc hg b t s
  refine ⟨_, s', hrun, bounds_of_created hat hcreated, ?_⟩
  exact Tree.everywhere_replace ht (hcreated.offers.mono hP.offers) hat

theorem mem_alternatives {u : Tree} {s : Symbol} (h : s ∈ alternatives g u) :
    g.Offers none s u.children.length := by
  simp only [alternatives, List.mem_filter, Bool.and_eq_true] at h
  obtain ⟨henabled, hfunction⟩ := Grammar.function_of_mem h.1
  exact ⟨h.2.2, henabled, Symbol.kind_of_function hfunction⟩

/-- A symbol that takes the children of a node can be given to it. -/
theorem rebind_of_accepts {s : Symbol} {u : Tree} (h : s.accepts u.children.length = true) :
    u.rebind s = .ok (u.relabel s) := by
  rw [Tree.rebind, if_pos h]

/-- What has subtrees stands for nothing but its symbol. -/
theorem kind?_of_isInner {site : Site} (h : site.isInner = true) : site.tree.kind? = none := by
  match site, h with
  | ⟨_, .constant ..⟩, h => simp [Site.isInner, Tree.isLeaf, Tree.children] at h
  | ⟨_, .variable _⟩, h => simp [Site.isInner, Tree.isLeaf, Tree.children] at h
  | ⟨_, .node ..⟩, _ => rfl

/-- What has become of a tree once candidates have been tried: it is as it was, and if there were enough
attempts for all of them none has an alternative; or one of them has been given an alternative. -/
inductive Recast (g : Grammar) (t : Tree) (attempts : Nat) (candidates : List Site) : Tree → Prop
  | kept : (candidates.length ≤ attempts → ∀ site ∈ candidates, alternatives g site.tree = []) →
    Recast g t attempts candidates t
  | changed {site : Site} {f : Symbol} : site ∈ candidates → f ∈ alternatives g site.tree →
    Recast g t attempts candidates (Tree.replace (site.tree.relabel f) site.path t)

/-- A candidate without an alternative takes one attempt. -/
theorem Recast.of_rest {attempts i : Nat} {candidates : List Site} {t' : Tree}
    (hi : i < candidates.length) (hnone : alternatives g candidates[i].tree = [])
    (h : Recast g t attempts (candidates.eraseIdx i) t') : Recast g t (attempts + 1) candidates t' := by
  cases h with
  | kept hrest =>
    refine .kept fun hcount site hsite => ?_
    rw [List.length_eraseIdx_of_lt hi] at hrest
    obtain ⟨j, hj, rfl⟩ := List.mem_iff_getElem.mp hsite
    by_cases hij : j = i
    · subst hij
      exact hnone
    · exact hrest (by omega) _ (List.mem_eraseIdx_iff_getElem.mpr ⟨j, hj, hij, rfl⟩)
  | changed hsite hf => exact .changed (List.mem_of_mem_eraseIdx hsite) hf

/-- **Candidates are tried until one has an alternative**, each at most once.  There are always as many
candidates left as attempts. -/
theorem returns_tryNodes (g : Grammar) (t : Tree) : ∀ (attempts : Nat) {candidates : List Site},
    attempts ≤ candidates.length →
      (tryNodes g t attempts candidates : Draws σ Tree).Returns (Recast g t attempts candidates)
  | 0, candidates, _ => by
    refine Draws.returns_pure (.kept fun hcount site hsite => ?_)
    rw [List.eq_nil_of_length_eq_zero (by omega : candidates.length = 0)] at hsite
    cases hsite
  | attempts + 1, candidates, hcount => by
    unfold tryNodes
    refine Draws.returns_bind (Draws.returns_int (by omega)) fun i hi => ?_
    have hlt : i < candidates.length := by omega
    simp only [List.getElem?_eq_getElem hlt]
    refine Draws.returns_ite (fun hnone => ?_) fun hothers => ?_
    · have hleft : attempts ≤ (candidates.eraseIdx i).length := by
        rw [List.length_eraseIdx_of_lt hlt]
        omega
      exact (returns_tryNodes g t attempts hleft).mono fun _ h => h.of_rest hlt (by simpa using hnone)
    · have hne : alternatives g candidates[i].tree ≠ [] := by simpa using hothers
      refine Draws.returns_bind (Draws.returns_choose hne) fun f hf => ?_
      refine Draws.returns_bind (Draws.returns_ofExcept (P := (· = candidates[i].tree.relabel f))
        (rebind_of_accepts (mem_alternatives hf).accepts) rfl) fun changed hchanged =>
          Draws.returns_pure ?_
      subst hchanged
      exact .changed (List.getElem_mem hlt) hf

/-- A node that may be given another function stands where it says, and has children. -/
theorem mem_inner {site : Site} : site ∈ t.sites.filter (·.isInner) →
    t.at? site.path = some site.tree ∧ site.isInner = true := by
  intro h
  obtain ⟨hsite, hinner⟩ := List.mem_filter.mp h
  exact ⟨Tree.at?_of_mem_sites hsite, hinner⟩

section Recast

variable {attempts : Nat} {t' : Tree}

theorem Recast.bounds (h : Recast g t attempts (t.sites.filter (·.isInner)) t') : b.Bounds t t' := by
  cases h with
  | kept _ => exact .refl b t
  | changed hsite _ => exact Budget.bounds_of_smaller (mem_inner hsite).1 (by simp) (by simp)

theorem Recast.everywhere (hP : g.Supports P) (ht : t.Everywhere P)
    (h : Recast g t attempts (t.sites.filter (·.isInner)) t') : t'.Everywhere P := by
  cases h with
  | kept _ => exact ht
  | changed hsite hf =>
    obtain ⟨hat, hinner⟩ := mem_inner hsite
    refine Tree.everywhere_replace ht (Tree.everywhere_relabel ?_ ?_) hat
    · exact Tree.everywhere_at? ht hat
    · exact hP.offers _ _ _ (kind?_of_isInner hinner ▸ mem_alternatives hf)

end Recast

theorem returns_changeFunction (attempts : Int) (g : Grammar) (t : Tree) :
    (changeFunction attempts g t : Draws σ Tree).Returns
      (Recast g t (min (max 1 attempts).toNat (t.sites.filter (·.isInner)).length)
        (t.sites.filter (·.isInner))) :=
  returns_tryNodes g t _ (Nat.min_le_right _ _)

/-- What has become of a tree once a leaf has been drawn, from where the source stands then to where it
stands in the end: a constant has been moved by what has been drawn, a variable points at another input
if there is one, and what is neither is left alone. -/
inductive Adjusted (range : Float) (g : Grammar) (t : Tree) (s₁ : σ) : Site → Tree → σ → Prop
  | moved {p : Path} {f : Symbol} {v delta : Float} {s' : σ} :
    (Draws.uniform (-range) range).runFrom s₁ = (.ok delta, s') →
    Adjusted range g t s₁ ⟨p, .constant f v⟩ (Tree.replace (.constant f (v + delta)) p t) s'
  | turned {p : Path} {f other : Symbol} {s' : σ} : other ∈ g.variableSymbols → other.name ≠ f.name →
    Adjusted range g t s₁ ⟨p, .variable f⟩ (Tree.replace (.variable other) p t) s'
  | alone {p : Path} {f : Symbol} : (∀ other ∈ g.variableSymbols, other.name = f.name) →
    Adjusted range g t s₁ ⟨p, .variable f⟩ t s₁
  | bare {p : Path} {f : Symbol} {cs : List Tree} : Adjusted range g t s₁ ⟨p, .node f cs⟩ t s₁

/-- An input that can be drawn is one for leaves. -/
theorem offers_variable {f : Symbol} (h : f ∈ g.variableSymbols) : g.Offers (some .variable) f 0 := by
  obtain ⟨henabled, hvariable⟩ := Grammar.variable_of_mem h
  simp only [Symbol.isVariable, decide_eq_true_eq] at hvariable
  exact ⟨Symbol.accepts_zero_of_terminal (Symbol.isTerminal_of_kind (by simp [hvariable])), henabled,
    hvariable⟩

/-- **A leaf is drawn and adjusted.** -/
theorem runFrom_changeLeaf (range : Float) (g : Grammar) (t : Tree) (s : σ) :
    ∃ site s₁ t' s', (Draws.choose (t.sites.filter (!·.isInner))).runFrom s = (.ok site, s₁) ∧
      t.at? site.path = some site.tree ∧ site.isInner = false ∧
      (changeLeaf range (some g) t).runFrom s = (.ok t', s') ∧
      Adjusted range g t s₁ site t' s' := by
  have hne : t.sites.filter (!·.isInner) ≠ [] := by
    obtain ⟨site, hsite, hleaf⟩ := Tree.exists_leaf_site t
    exact List.ne_nil_of_mem (List.mem_filter.mpr ⟨hsite, by simp [hleaf]⟩)
  obtain ⟨site, s₁, hdraw, hmem⟩ := Draws.returns_choose hne s
  obtain ⟨hsite, hleaf⟩ := List.mem_filter.mp hmem
  have hat := Tree.at?_of_mem_sites hsite
  suffices h : ∃ t' s', (changeLeaf range (some g) t).runFrom s = (.ok t', s') ∧
      Adjusted range g t s₁ site t' s' by
    obtain ⟨t', s', hrun, hadjusted⟩ := h
    exact ⟨site, s₁, t', s', hdraw, hat, by simpa using hleaf, hrun, hadjusted⟩
  rw [changeLeaf, Draws.runFrom_bind_ok hdraw]
  match site with
  | ⟨p, .constant f v⟩ =>
    obtain ⟨delta, s', hdelta, -⟩ := Draws.returns_uniform (-range) range s₁
    exact ⟨_, s', Draws.runFrom_bind_ok hdelta, .moved hdelta⟩
  | ⟨p, .variable f⟩ =>
    by_cases hothers : g.variableSymbols.filter (·.name ≠ f.name) = []
    · refine ⟨t, s₁, ?_, .alone fun other hother => ?_⟩
      · simp only [hothers, List.isEmpty_nil, if_true]
        rfl
      · rw [List.filter_eq_nil_iff] at hothers
        simpa using hothers other hother
    · obtain ⟨other, s', hdraw', hother⟩ := Draws.returns_choose hothers s₁
      obtain ⟨henabled, hname⟩ := List.mem_filter.mp hother
      refine ⟨_, s', ?_, .turned henabled (by simpa using hname)⟩
      have hrebind := rebind_of_accepts (u := .variable f) (offers_variable henabled).accepts
      simp only [List.isEmpty_iff, hothers, if_false]
      rw [Draws.runFrom_bind_ok hdraw', hrebind]
      rfl
  | ⟨p, .node f cs⟩ => exact ⟨t, s₁, rfl, .bare⟩

/-- A leaf that is replaced by a leaf. -/
theorem bounds_of_leaf {u new : Tree} {p : Path} (hat : t.at? p = some u) (hl : new.length = 1)
    (hd : new.depth = 1) : b.Bounds t (Tree.replace new p t) :=
  Budget.bounds_of_smaller hat (hl ▸ Tree.length_pos u) (hd ▸ Tree.depth_pos u)

section Adjusted

variable {range : Float} {s₁ s' : σ} {site : Site} {t' : Tree}

theorem Adjusted.bounds (hat : t.at? site.path = some site.tree)
    (h : Adjusted range g t s₁ site t' s') : b.Bounds t t' := by
  cases h with
  | moved _ => exact bounds_of_leaf hat rfl rfl
  | turned _ _ => exact bounds_of_leaf hat rfl rfl
  | alone _ => exact .refl b t
  | bare => exact .refl b t

theorem Adjusted.everywhere (hP : g.Supports P) (ht : t.Everywhere P)
    (hat : t.at? site.path = some site.tree) (h : Adjusted range g t s₁ site t' s') :
    t'.Everywhere P := by
  cases h with
  | moved _ =>
    have hhere := Tree.everywhere_constant.mp (Tree.everywhere_at? ht hat)
    exact Tree.everywhere_replace ht (Tree.everywhere_constant.mpr hhere) hat
  | turned hother _ =>
    have hnew := hP.offers _ _ _ (offers_variable hother)
    exact Tree.everywhere_replace ht (Tree.everywhere_variable.mpr hnew) hat
  | alone _ => exact ht
  | bare => exact ht

end Adjusted

/-- A node that is put above another one has a place for it, and no more siblings than are
spare. -/
theorem returns_insertedArity {s : Symbol} {spare : Nat} (hfunction : s.isTerminal = false)
    (hleast : s.least ≤ spare + 1) :
    (insertedArity s spare : Draws σ Nat).Returns fun n =>
      1 ≤ n ∧ s.accepts n = true ∧ n - 1 ≤ spare := by
  have hmost : s.most ≠ 0 := by simpa [Symbol.isTerminal] using hfunction
  have hbounds := s.least_le_most
  simp only [Symbol.accepts_iff]
  unfold insertedArity
  refine Draws.returns_ite (fun _ => Draws.returns_pure (by omega)) fun hopen => ?_
  refine Draws.returns_bind (Draws.returns_span (by omega)) fun n hn => Draws.returns_pure ?_
  omega

/-- **Siblings are created within what is spare**, and not deeper than the levels left to them. -/
theorem returns_siblings {creator : Creator} (hc : creator ≠ .abstract) (hg : g.terminals ≠ [])
    {s : Symbol} {slots spare : Nat} {depth : Int} (hdepth : 1 ≤ depth) (hslots : slots ≤ spare)
    (hmost : 1 + slots ≤ s.most) :
    (fillSlots s (fun length => creator.createTree g length depth) 1 slots spare :
      Draws σ (List Tree)).Returns fun siblings =>
        siblings.length = slots ∧ Tree.totalLength siblings ≤ spare ∧
          ∀ c ∈ siblings, c.depth ≤ depth.toNat ∧ c.Everywhere g.Offers := by
  have hmake : ∀ length : Nat, 1 ≤ length → (creator.createTree g length depth :
      Draws σ Tree).Returns fun c =>
        c.length ≤ length ∧ c.depth ≤ depth.toNat ∧ c.Everywhere g.Offers := by
    intro length hlength
    refine (Creator.returns_createTree hc hg (by omega) hdepth).mono fun c hcreated => ?_
    exact ⟨hcreated.length_le, hcreated.depth_le, hcreated.offers⟩
  have hshares : slots * 1 ≤ spare := by rwa [Nat.mul_one]
  exact returns_fillSlots (Nat.le_refl 1) hmake hshares hmost

/-- Nothing is put above a site: no node is spare, fewer levels are left below a new node than what
stands there has, or every function needs more children than are spare. -/
def Blocked (b : Budget) (g : Grammar) (t : Tree) (target : Site) : Prop :=
  b.maxLength - t.length - 1 < 0 ∨ b.maxDepth - target.level - 1 < target.tree.depth ∨
    ∀ f ∈ g.functions, b.maxLength - t.length - 1 < (f.least : Int) - 1

/-- A function for a node above a site, and siblings for what stands there, within what is spare. -/
structure Wrapper (b : Budget) (g : Grammar) (t : Tree) (target : Site) (f : Symbol)
    (siblings : List Tree) : Prop where
  function : f ∈ g.functions
  accepts : f.accepts (siblings.length + 1) = true
  length_le : (Tree.totalLength siblings : Int) ≤ b.maxLength - t.length - 1
  depth_le : ∀ c ∈ siblings, (c.depth : Int) ≤ b.maxDepth - target.level - 1
  offers : ∀ c ∈ siblings, c.Everywhere g.Offers

/-- What has become of a tree once a site has been drawn. -/
inductive Inserted (b : Budget) (g : Grammar) (t : Tree) (target : Site) : Tree → Prop
  | blocked : Blocked b g t target → Inserted b g t target t
  | wrapped {f : Symbol} {siblings : List Tree} : ¬Blocked b g t target →
    Wrapper b g t target f siblings →
    Inserted b g t target (Tree.replace (.node f (target.tree :: siblings)) target.path t)

/-- **A site is drawn, and a node is put above it unless that is blocked.** -/
theorem runFrom_insertNode {creator : Creator} (hc : creator ≠ .abstract) (hg : g.terminals ≠ [])
    (b : Budget) (t : Tree) (s : σ) :
    ∃ target s₁ t' s', (Draws.choose t.sites).runFrom s = (.ok target, s₁) ∧
      t.at? target.path = some target.tree ∧
      (insertNode b creator g t).runFrom s = (.ok t', s') ∧ Inserted b g t target t' := by
  obtain ⟨target, s₁, hdraw, htarget⟩ := Draws.returns_choose (Tree.sites_ne_nil t) s
  have hat := Tree.at?_of_mem_sites htarget
  suffices h : ∃ t' s', (insertNode b creator g t).runFrom s = (.ok t', s') ∧
      Inserted b g t target t' by
    obtain ⟨t', s', hrun, hinserted⟩ := h
    exact ⟨target, s₁, t', s', hdraw, hat, hrun, hinserted⟩
  refine Draws.Returns.after ?_ hdraw
  refine Draws.returns_ite (fun hspent => Draws.returns_pure (.blocked ?_)) fun hroom => ?_
  · rw [Bool.or_eq_true, decide_eq_true_eq, decide_eq_true_eq] at hspent
    exact hspent.imp_right .inl
  simp only [Bool.or_eq_true, decide_eq_true_eq, not_or] at hroom
  refine Draws.returns_ite (fun hnone => Draws.returns_pure (.blocked ?_)) fun hcandidates => ?_
  · refine .inr (.inr fun f hf => ?_)
    rw [List.isEmpty_iff, List.filter_eq_nil_iff] at hnone
    simpa using hnone f hf
  refine Draws.returns_bind (Draws.returns_choose (by simpa using hcandidates)) fun f hf => ?_
  obtain ⟨hfunction, hspare⟩ := List.mem_filter.mp hf
  have hleast : (f.least : Int) - 1 ≤ b.maxLength - t.length - 1 := by simpa using hspare
  have hfree : ¬Blocked b g t target := by
    rintro (hlength | hdepth | hneeds)
    · exact hroom.1 hlength
    · exact hroom.2 hdepth
    · exact absurd (hneeds f hfunction) (by omega)
  have hterminal := (Grammar.function_of_mem hfunction).2
  refine Draws.returns_bind (returns_insertedArity hterminal (by omega)) fun n harity => ?_
  obtain ⟨hn, haccepts, hsiblings⟩ := harity
  have hmost : 1 + (n - 1) ≤ f.most := by
    simp only [Symbol.accepts, Bool.and_eq_true, decide_eq_true_eq] at haccepts
    omega
  refine Draws.returns_bind (P := fun _ => True)
    (Draws.returns_ofExcept (Tree.roomFor_ok (by omega)) trivial) fun _ _ => ?_
  have hpos := Tree.depth_pos target.tree
  refine Draws.returns_bind (returns_siblings hc hg (by omega) hsiblings hmost)
    fun siblings hfilled => ?_
  obtain ⟨hcount, htotal, hall⟩ := hfilled
  have hwrapper : Wrapper b g t target f siblings := by
    refine ⟨hfunction, ?_, by omega, fun c hchild => ?_, fun c hchild => (hall c hchild).2⟩
    · rwa [show siblings.length + 1 = n by omega]
    · have hdepth := (hall c hchild).1
      omega
  exact Draws.returns_ofExcept (Tree.put_of_at? _ hat) (.wrapped hfree hwrapper)

section Inserted

variable {target : Site} {t' : Tree}

/-- **An inserted node is counted against what is spare**, and its level against the levels below. -/
theorem Inserted.bounds (hat : t.at? target.path = some target.tree) (h : Inserted b g t target t') :
    b.Bounds t t' := by
  cases h with
  | blocked _ => exact .refl b t
  | @wrapped f siblings hfree hwrapper =>
    have hroom : ¬b.maxDepth - target.level - 1 < target.tree.depth := fun h => hfree (.inr (.inl h))
    have hlevel : target.level = target.path.length := rfl
    have hspare := hwrapper.length_le
    have hlength := Tree.length_replace (.node f (target.tree :: siblings)) hat
    have hdepth := Tree.depth_replace_le (.node f (target.tree :: siblings)) hat
    have hgreatest : Tree.greatestDepth siblings ≤ (b.maxDepth - target.level - 1).toNat :=
      Tree.greatestDepth_le fun c hc => Int.le_toNat (by omega) |>.mpr (hwrapper.depth_le c hc)
    simp only [Tree.length, Tree.totalLength] at hlength
    simp only [Tree.depth, Tree.greatestDepth] at hdepth
    exact ⟨by omega, by omega⟩

/-- A condition that the grammar supports holds of the node that is inserted and of its siblings. -/
theorem Inserted.everywhere (hP : g.Supports P) (ht : t.Everywhere P)
    (hat : t.at? target.path = some target.tree) (h : Inserted b g t target t') :
    t'.Everywhere P := by
  cases h with
  | blocked _ => exact ht
  | @wrapped f siblings _ hwrapper =>
    obtain ⟨henabled, hterminal⟩ := Grammar.function_of_mem hwrapper.function
    refine Tree.everywhere_replace ht (Tree.everywhere_node.mpr ⟨?_, fun c hc => ?_⟩) hat
    · exact hP.offers _ _ _ ⟨hwrapper.accepts, henabled, Symbol.kind_of_function hterminal⟩
    · rcases List.mem_cons.mp hc with rfl | hc
      · exact Tree.everywhere_at? ht hat
      · exact (hwrapper.offers c hc).mono hP.offers

end Inserted

theorem returns_insertNode {creator : Creator} (hc : creator ≠ .abstract)
    (hg : g.terminals ≠ []) (hP : g.Supports P) (ht : t.Everywhere P) :
    (insertNode b creator g t : Draws σ Tree).Returns fun t' =>
      b.Bounds t t' ∧ t'.Everywhere P := by
  intro s
  obtain ⟨target, _, t', s', _, hat, hrun, hinserted⟩ := runFrom_insertNode hc hg b t s
  exact ⟨t', s', hrun, hinserted.bounds hat, hinserted.everywhere hP ht hat⟩

/-- A subtree that its parent can spare stands below a parent that keeps enough children. -/
theorem isRemovable_iff {site : Site} : isRemovable t site = true ↔
    ∃ p i parent, site.path = p ++ [i] ∧ t.at? p = some parent ∧
      parent.symbol.least < parent.children.length := by
  unfold isRemovable Tree.parentPath?
  by_cases hroot : site.path = []
  · simp [hroot]
  · rw [if_neg hroot, Option.bind_some]
    constructor
    · intro h
      split at h
      · next parent hat =>
        refine ⟨site.path.dropLast, site.path.getLast hroot, parent, ?_, hat, by simpa using h⟩
        exact (List.dropLast_concat_getLast hroot).symm
      · simp at h
    · rintro ⟨p, i, parent, hpath, hat, hleast⟩
      simp [hpath, hat, hleast]

/-- Some node has a child more than it needs. -/
def HasSpare (t : Tree) : Prop :=
  ∃ p parent, t.at? p = some parent ∧ parent.symbol.least < parent.children.length

/-- What has become of a tree with a node less: it has lost a child that a node could spare; or no node
could spare one, and a child has taken the place of its parent; or there is no child in it. -/
inductive Removed (t : Tree) : Tree → Prop
  | spared {p : Path} {i : Nat} {parent : Tree} : t.at? p = some parent →
    i < parent.children.length → parent.symbol.least < parent.children.length →
    Removed t (t.erase (p ++ [i]))
  | lifted {p : Path} {u child : Tree} : ¬HasSpare t → t.at? p = some u → child ∈ u.children →
    Removed t (Tree.replace child p t)
  | single : t.children = [] → Removed t t

/-- If some node has a child more than it needs, there is a site whose parent can spare it. -/
theorem exists_removable (h : HasSpare t) : ∃ site ∈ t.sites, isRemovable t site = true := by
  obtain ⟨p, parent, hparent, hleast⟩ := h
  have hpos : 0 < parent.children.length := Nat.zero_lt_of_lt hleast
  have hat : t.at? (p ++ [0]) = some parent.children[0] := by
    rw [Tree.at?_concat 0 hparent, List.getElem?_eq_getElem hpos]
  refine ⟨⟨p ++ [0], parent.children[0]⟩, Tree.mem_sites_of_at? hat, ?_⟩
  exact isRemovable_iff.mpr ⟨p, 0, parent, rfl, hparent, hleast⟩

/-- **A removal takes a child that can be spared**, and lifts a child to its parent's place if there is
none. -/
theorem returns_removeNode (t : Tree) : (removeNode t : Draws σ Tree).Returns (Removed t) := by
  unfold removeNode
  refine Draws.returns_ite (fun hnone => ?_) fun hremovable => ?_
  · have hspare : ¬HasSpare t := by
      intro h
      obtain ⟨site, hsite, hremovable⟩ := exists_removable h
      rw [List.isEmpty_iff, List.filter_eq_nil_iff] at hnone
      exact hnone site hsite hremovable
    refine Draws.returns_ite (fun hnone => Draws.returns_pure (.single ?_)) fun hinner => ?_
    · rw [List.isEmpty_iff, List.filter_eq_nil_iff] at hnone
      have hroot := hnone ⟨[], t⟩ (Tree.mem_sites_of_at? rfl)
      simpa [Site.isInner, Tree.isLeaf] using hroot
    refine Draws.returns_bind (Draws.returns_choose (by simpa using hinner)) fun site hsite => ?_
    obtain ⟨hsite, hchildren⟩ := List.mem_filter.mp hsite
    have hat := Tree.at?_of_mem_sites hsite
    have hne : site.tree.children ≠ [] := by
      simpa [Site.isInner, Tree.isLeaf] using hchildren
    refine Draws.returns_bind (Draws.returns_choose hne) fun child hchild => ?_
    exact Draws.returns_ofExcept (Tree.put_of_at? child hat) (.lifted hspare hat hchild)
  · refine Draws.returns_bind (Draws.returns_choose (by simpa using hremovable))
      fun site hsite => ?_
    obtain ⟨hsite, hspare⟩ := List.mem_filter.mp hsite
    have hat := Tree.at?_of_mem_sites hsite
    obtain ⟨p, i, parent, hpath, hparent, hleast⟩ := isRemovable_iff.mp hspare
    rw [hpath] at hat ⊢
    obtain ⟨hi, -⟩ := List.getElem?_eq_some_iff.mp ((Tree.at?_concat i hparent).symm.trans hat)
    exact Draws.returns_ofExcept (Tree.takeOut_of_at? hat hparent hleast)
      (.spared hparent hi hleast)

section Removed

variable {t' : Tree}

/-- **With something less a tree is shorter, and not deeper**; a single node is left alone. -/
theorem Removed.smaller (h : Removed t t') :
    t'.length < t.length ∧ t'.depth ≤ t.depth ∨ t.children = [] ∧ t' = t := by
  cases h with
  | @spared p i parent hparent hi _ =>
    have hat : t.at? (p ++ [i]) = some parent.children[i] := by
      rw [Tree.at?_concat i hparent, List.getElem?_eq_getElem hi]
    have hne : p ++ [i] ≠ [] := List.append_ne_nil_of_right_ne_nil p (List.cons_ne_nil i [])
    have hlength := Tree.length_erase hat hne
    have hpos := Tree.length_pos parent.children[i]
    exact .inl ⟨by omega, Tree.depth_erase_le hat hne⟩
  | @lifted p u child _ hat hchild =>
    obtain ⟨hl, hd⟩ := Tree.child_lt hchild
    have hlength := Tree.length_replace child hat
    have hdepth := Tree.depth_replace_le child hat
    have hlevel := Tree.level_add_depth_le hat
    exact .inl ⟨by omega, by omega⟩
  | single hnone => exact .inr ⟨hnone, rfl⟩

theorem Removed.bounds (h : Removed t t') : b.Bounds t t' := by
  rcases h.smaller with ⟨hl, hd⟩ | ⟨-, rfl⟩
  · exact ⟨by omega, by omega⟩
  · exact .refl b t'

/-- A condition that a node keeps when it loses a child that it can spare passes to what is left. -/
theorem Removed.everywhere (hP : ∀ k f n, P k f n → f.least < n → P k f (n - 1))
    (ht : t.Everywhere P) (h : Removed t t') : t'.Everywhere P := by
  cases h with
  | @spared p i parent hparent hi hleast =>
    have hhere := (Tree.everywhere_at? ht hparent).root
    exact Tree.everywhere_erase ht hparent hi (hP _ _ _ hhere hleast)
  | @lifted p u child hspare hat hchild =>
    exact Tree.everywhere_replace ht (Tree.everywhere_child (Tree.everywhere_at? ht hat) hchild) hat
  | single _ => exact ht

end Removed

/-! ## 4. All mutators -/

mutual

/-- A mutator for a budget: what creates trees has a strategy and that budget, and what combines
others has some to draw from. -/
def MadeFor (b : Budget) : Mutator → Prop
  | .subtree budget creator => budget = b ∧ creator ≠ .abstract
  | .nodeInsertion budget creator => budget = b ∧ creator ≠ .abstract
  | .combined members => members ≠ [] ∧ AllMadeFor b members
  | .abstract => False
  | _ => True

/-- Mutators for a budget. -/
def AllMadeFor (b : Budget) : List Mutator → Prop
  | [] => True
  | m :: ms => MadeFor b m ∧ AllMadeFor b ms

end

theorem memberCount_eq_length : ∀ ms : List Mutator, @memberCount σ _ ms = ms.length
  | [] => rfl
  | m :: ms => by rw [memberCount, memberCount_eq_length ms, List.length_cons]

mutual

/-- **Mutating never fails and never exceeds its bounds**, and a condition on all nodes that the
grammar supports passes to the changed tree. -/
theorem returns_mutate (hg : g.terminals ≠ []) (hP : g.Supports P) (ht : t.Everywhere P) :
    ∀ m : Mutator, m.MadeFor b →
      (m.mutate (some g) (some t) : Draws σ Tree).Returns fun t' =>
        (atLeastOne b).Bounds t t' ∧ t'.Everywhere P
  | .subtree budget creator, hm => by
    obtain ⟨rfl, hc⟩ := hm
    exact returns_replaceSubtree hc hg hP ht
  | .changeNodeType attempts, _ =>
    (returns_changeFunction attempts g t).mono fun _ h => ⟨h.bounds, h.everywhere hP ht⟩
  | .changeTerminal range, _ => by
    intro s
    obtain ⟨_, _, t', s', _, hat, _, hrun, hadjusted⟩ := runFrom_changeLeaf (clampRange range) g t s
    exact ⟨t', s', hrun, hadjusted.bounds hat, hadjusted.everywhere hP ht hat⟩
  | .nodeInsertion budget creator, hm => by
    obtain ⟨rfl, hc⟩ := hm
    exact returns_insertNode hc hg hP ht
  | .nodeRemoval, _ => (returns_removeNode t).mono fun _ h => ⟨h.bounds, h.everywhere hP.fewer ht⟩
  | .combined members, hm => by
    obtain ⟨hne, hall⟩ := hm
    have hpos : 0 < members.length := List.length_pos_iff.mpr hne
    rw [mutate]
    refine Draws.returns_bind (Draws.returns_int ?_) fun i hi => ?_
    · rw [memberCount_eq_length]
      omega
    · rw [memberCount_eq_length] at hi
      exact returns_mutateBy hg hP ht i members (by omega) hall

theorem returns_mutateBy (hg : g.terminals ≠ []) (hP : g.Supports P) (ht : t.Everywhere P) :
    ∀ (i : Nat) (ms : List Mutator), i < ms.length → AllMadeFor b ms →
      (mutateBy i ms (some g) (some t) : Draws σ Tree).Returns fun t' =>
        (atLeastOne b).Bounds t t' ∧ t'.Everywhere P
  | 0, m :: _, _, hall => returns_mutate hg hP ht m hall.1
  | i + 1, _ :: ms, hi, hall => returns_mutateBy hg hP ht i ms (Nat.lt_of_succ_lt_succ hi) hall.2

end

end Mutator
end FormulaEvolution
