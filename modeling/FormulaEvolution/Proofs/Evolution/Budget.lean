/-
# Candidates keep their budgets

For every configuration that can be built into an evolution, every grammar with a terminal and every
random source: after a start and any steps, all candidates and the best one have trees within the
configured length and depth, in which every symbol is a candidate of the grammar and takes its
number of children (`Evolution.candidates_within_budget`).

The equipment never changes on the way (`Reached.settings_eq`), and it is made for one budget
(`Equipment.MadeFor`): that is all a configuration contributes.  What remains is one step: created
trees are within the budget, a child of parents within the budget is, and so is a changed tree.
-/
import FormulaEvolution.Proofs.Evolution.Best
import FormulaEvolution.Proofs.Operators.Crossover
import FormulaEvolution.Proofs.Operators.Mutation

namespace FormulaEvolution

/-! ## 1. Equipment for a budget -/

/-- A tree within a budget, made of candidates of a grammar. -/
def Budget.Contains (b : Budget) (g : Grammar) (t : Tree) : Prop :=
  b.Holds t ∧ t.Everywhere g.Offers

/-- A candidate with a tree within a budget. -/
def Individual.Within (b : Budget) (g : Grammar) (x : Individual) : Prop :=
  ∃ t, x.tree = some t ∧ b.Contains g t

/-- Equipment that makes trees within a budget from a grammar with a terminal. -/
structure Equipment.MadeFor (q : Equipment) (b : Budget) (g : Grammar) : Prop where
  grammar : q.grammar = g
  terminals : g.terminals ≠ []
  creator : q.creator ≠ .abstract
  crossover : q.crossover.budget = b
  mutator : q.mutator.MadeFor b

variable {σ : Type} [RandomSource σ] {q : Equipment} {l : Limits} {b : Budget} {g : Grammar}

/-! ## 2. Making one candidate -/

/-- A created tree is within the limits it was created for. -/
theorem returns_createOne (hq : q.MadeFor b g) (hlength : l.maxLength = b.maxLength)
    (hdepth : l.maxDepth = b.maxDepth) (hb : 1 ≤ b.maxLength ∧ 1 ≤ b.maxDepth) :
    (createOne q l : Draws σ Individual).Returns (·.Within b g) := by
  have hcreate : (q.creator.createTree q.grammar l.maxLength l.maxDepth : Draws σ Tree).Returns
      (g.Created b.maxLength.toNat b.maxDepth.toNat) := by
    rw [hlength, hdepth, hq.grammar]
    exact Creator.returns_createTree hq.creator hq.terminals hb.1 hb.2
  refine Draws.returns_bind hcreate fun t ht => Draws.returns_pure ?_
  have hl := ht.length_le
  have hd := ht.depth_le
  exact ⟨t, rfl, ⟨by omega, by omega⟩, ht.offers⟩

/-- A tournament among some members is won by one of them. -/
theorem returns_tournament {α : Type} (size : Int) (fitness : α → Option Float) {members : List α}
    (h : members ≠ []) :
    (tournament size (fun x => .ok (fitness x)) members : Draws σ α).Returns (· ∈ members) := by
  have hfitness : ∀ x : α, (Draws.ofExcept (.ok (fitness x)) : Draws σ (Option Float)).Returns
      fun _ => True := fun x => Draws.returns_ofExcept rfl trivial
  have hcontest : ∀ (rounds : Nat) (best : α × Option Float), best.1 ∈ members →
      (contest (fun x => .ok (fitness x)) members rounds best : Draws σ α).Returns
        (· ∈ members) := by
    intro rounds
    induction rounds with
    | zero => exact fun best hbest => Draws.returns_pure hbest
    | succ rounds ih =>
      intro best hbest
      refine Draws.returns_bind (Draws.returns_choose h) fun candidate hcandidate => ?_
      refine Draws.returns_bind (hfitness candidate) fun other _ => ih _ ?_
      split
      · exact hcandidate
      · exact hbest
  unfold tournament
  rw [if_neg (by simpa using h)]
  refine Draws.returns_bind (Draws.returns_choose h) fun first hfirst => ?_
  exact Draws.returns_bind (hfitness first) fun score _ => hcontest _ _ hfirst

/-- **Breeding from candidates within a budget never fails, and the tree is within it.** -/
theorem returns_breed (hq : q.MadeFor b g) (hb : 1 ≤ b.maxLength ∧ 1 ≤ b.maxDepth)
    {p : Population} (hne : p ≠ []) (hp : ∀ x ∈ p, x.Within b g) :
    (breed q l p : Draws σ (Option Tree)).Returns fun t? => ∃ t, t? = some t ∧ b.Contains g t := by
  refine Draws.returns_bind (returns_tournament _ _ hne) fun parent0 h0 => ?_
  refine Draws.returns_bind (returns_tournament _ _ hne) fun parent1 h1 => ?_
  obtain ⟨t0, ht0, hholds0, hoffers0⟩ := hp _ h0
  obtain ⟨t1, ht1, hholds1, hoffers1⟩ := hp _ h1
  refine Draws.returns_bind Draws.returns_unit fun u _ => ?_
  have hchange : ∀ child : Option Tree, (∃ t, child = some t ∧ b.Contains g t) →
      (Draws.unit >>= fun v =>
        if v < l.mutationProbability then
          q.mutator.mutate (some q.grammar) child >>= fun t => pure (some t)
        else pure child : Draws σ (Option Tree)).Returns fun t? =>
          ∃ t, t? = some t ∧ b.Contains g t := by
    rintro _ ⟨t, rfl, hholds, hoffers⟩
    have hmutate := Mutator.returns_mutate (σ := σ) hq.terminals g.supports_offers hoffers
      q.mutator hq.mutator
    rw [Mutator.atLeastOne_eq hb.1 hb.2] at hmutate
    rw [hq.grammar]
    refine Draws.returns_bind Draws.returns_unit fun v _ => ?_
    refine Draws.returns_ite (fun _ => ?_) fun _ => Draws.returns_pure ⟨t, rfl, hholds, hoffers⟩
    refine Draws.returns_bind hmutate fun t' hmutated => Draws.returns_pure ?_
    exact ⟨t', rfl, hmutated.1.holds hholds, hmutated.2⟩
  have hcross := Crossover.returns_cross (σ := σ) q.crossover hoffers0 hoffers1
  rw [hq.crossover] at hcross
  rw [ht0, ht1]
  refine Draws.returns_ite (fun _ => ?_) fun _ => ?_
  · refine Draws.returns_bind hcross fun t hcrossed => ?_
    exact hchange (some t) ⟨t, rfl, hcrossed.1.holds hholds0, hcrossed.2⟩
  · exact hchange (some t0) ⟨t0, rfl, hholds0, hoffers0⟩

/-- A bred candidate is within the budget. -/
theorem returns_breedOne (hq : q.MadeFor b g) (hb : 1 ≤ b.maxLength ∧ 1 ≤ b.maxDepth)
    {p : Population} (hne : p ≠ []) (hp : ∀ x ∈ p, x.Within b g) :
    (breedOne q l p : Draws σ Individual).Returns (·.Within b g) :=
  Draws.returns_bind (returns_breed hq hb hne hp) fun _ ht => Draws.returns_pure ht

/-- Whoever is bred is within the budget, also from candidates of whom there may be none: without
candidates breeding fails. -/
theorem yields_breedOne (hq : q.MadeFor b g) (hb : 1 ≤ b.maxLength ∧ 1 ≤ b.maxDepth)
    {p : Population} (hp : ∀ x ∈ p, x.Within b g) :
    (breedOne q l p : Draws σ Individual).Yields (·.Within b g) := by
  by_cases hne : p = []
  · subst hne
    have hbreed : (breed q l ([] : Population) : Draws σ (Option Tree)).Yields fun _ => False :=
      Draws.yields_bind (P := fun _ : Individual => False) (Draws.yields_throw _) fun _ h => h.elim
    exact Draws.yields_bind hbreed fun _ h => h.elim
  · exact (returns_breedOne hq hb hne hp).yields

omit [RandomSource σ] in
/-- Scoring leaves the trees alone. -/
theorem within_of_scored {e : Evaluator} {xs ys : List Individual}
    (h : scoreInOrder e xs = (ys, .ok ())) (hxs : ∀ x ∈ xs, x.Within b g) :
    ∀ y ∈ ys, y.Within b g := by
  have hscored := scoreInOrder_ok h
  clear h
  induction hscored with
  | nil => simp
  | cons hxy _ ih =>
    intro y hy
    rcases List.mem_cons.mp hy with rfl | hy
    · obtain ⟨t, ht, hcontains⟩ := hxs _ List.mem_cons_self
      exact ⟨t, hxy.1.trans ht, hcontains⟩
    · exact ih (fun x hx => hxs x (List.mem_cons_of_mem _ hx)) y hy

/-! ## 3. A generation -/

namespace Evolution

variable {e e' e₀ : Evolution σ}

/-- The parts but the source are an equipment for a budget, and the limits are those of the
budget. -/
def Equipped (e : Evolution σ) (b : Budget) (g : Grammar) : Prop :=
  e.limits.maxLength = b.maxLength ∧ e.limits.maxDepth = b.maxDepth ∧
    ∃ q : Equipment, q.MadeFor b g ∧ e.parts = q.parts e.parts.source

/-- The candidates of an evolution, and its best one, are within a budget. -/
structure Keeps (e : Evolution σ) (b : Budget) (g : Grammar) : Prop where
  equipped : e.Equipped b g
  positive : 1 ≤ b.maxLength ∧ 1 ≤ b.maxDepth
  population : ∀ x ∈ e.population, x.Within b g
  best : ∃ x, e.best = some x ∧ x.Within b g

omit [RandomSource σ] in
/-- An equipped evolution stays so with another source. -/
theorem Equipped.withSource (h : e.Equipped b g) (source : Option σ) :
    (e.withSource source).Equipped b g := by
  obtain ⟨hl, hd, q, hq, hparts⟩ := h
  refine ⟨hl, hd, q, hq, ?_⟩
  simp only [Evolution.withSource]
  rw [hparts]
  rfl

omit [RandomSource σ] in
theorem Equipped.complete (h : e.Equipped b g) {source : σ}
    (hcomplete : e.parts.complete = .ok (q, source)) : q.MadeFor b g := by
  obtain ⟨_, _, q', hq', hparts⟩ := h
  obtain ⟨rfl, _⟩ := Equipment.parts_inj (hparts.symm.trans (Parts.complete_ok hcomplete))
  exact hq'

omit [RandomSource σ] in
/-- The best of an evolution is one of its population or the best before. -/
theorem best_within {p : Population} (hp : ∀ x ∈ p, x.Within b g)
    (hbest : p = [] → ∃ x, e.best = some x) (hbefore : ∀ x, e.best = some x → x.Within b g) :
    ∃ x, ({ e with population := p } : Evolution σ).noteBest.best = some x ∧ x.Within b g := by
  have hall := best_of_noteBest (e := { e with population := p }) hp hbefore
  rcases noteBest_spec { e with population := p } with ⟨hnil, hsame⟩ | ⟨_, -, hnew⟩
  · obtain ⟨x, hx⟩ := hbest hnil
    exact ⟨x, hsame.trans hx, hall x (hsame.trans hx)⟩
  · exact ⟨_, hnew, hall _ hnew⟩

/-- **A start that succeeds keeps the budget.** -/
theorem keeps_of_start (h : e.Equipped b g) (hstart : e.start = (.ok (), e')) : e'.Keeps b g := by
  obtain ⟨q, source, created, source', p, hready, hcreated, hscored, rfl⟩ := start_ok hstart
  obtain ⟨hcomplete, hcheck⟩ := ready_ok hready
  obtain ⟨hsize, hlength, hdepth⟩ := Limits.check_ok hcheck
  have hpositive : 1 ≤ b.maxLength ∧ 1 ≤ b.maxDepth := ⟨h.1 ▸ hlength, h.2.1 ▸ hdepth⟩
  have hdrawn := Draws.yields_drawMany
    (returns_createOne (h.complete hcomplete) h.1 h.2.1 hpositive).yields _ _ _ _ hcreated
  have hp := within_of_scored hscored hdrawn.2
  have hne : p ≠ [] := by
    intro hnil
    have hscores := (scoreInOrder_ok hscored).length_eq
    rw [hnil, hdrawn.1, List.length_nil] at hscores
    omega
  refine ⟨h.withSource (some source'), hpositive, hp, ?_⟩
  exact best_within (e := e.restart.withSource (some source')) hp (fun hnil => absurd hnil hne)
    (by simp [restart, Evolution.withSource])

omit [RandomSource σ] in
/-- The elite is taken from the population. -/
theorem mem_of_mem_elite {x : Individual} (h : x ∈ e.elite) : x ∈ e.population := by
  refine (sortByFitness_perm (·.fitness) e.population).mem_iff.mp ?_
  unfold elite Population.best takeFront at h
  split at h
  · exact List.mem_of_mem_take h
  · exact List.mem_of_mem_take h

/-- **Advancing keeps the budget.** -/
theorem keeps_of_advance (h : e.Keeps b g) (hadvance : e.advance = (.ok (), e')) :
    e'.Keeps b g := by
  obtain ⟨bred, source, hoffspring, rfl⟩ := advance_ok hadvance
  have hbred : ∀ x ∈ bred, x.Within b g := by
    rcases offspring_ok hoffspring with ⟨-, rfl⟩ |
      ⟨q, source, drawn, source', hcomplete, hdrawn, hscored⟩
    · simp
    · have hone := yields_breedOne (σ := σ) (l := e.limits) (h.equipped.complete hcomplete)
        h.positive h.population
      exact within_of_scored hscored (Draws.yields_drawMany hone _ _ _ _ hdrawn).2
  have helite : ∀ x ∈ e.elite, x.Within b g := fun x hx => h.population x (mem_of_mem_elite hx)
  have hnext : ∀ x ∈ e.elite ++ bred, x.Within b g := by
    intro x hx
    rcases List.mem_append.mp hx with hx | hx
    · exact helite x hx
    · exact hbred x hx
  obtain ⟨x, hx, hwithin⟩ := h.best
  refine ⟨h.equipped.withSource source, h.positive, hnext, ?_⟩
  refine best_within (e := e.withSource source) hnext (fun _ => ⟨x, hx⟩) fun y hy => ?_
  obtain rfl : x = y := Option.some.inj (hx.symm.trans hy)
  exact hwithin

omit [RandomSource σ] in
theorem Keeps.aside (h : e.Keeps b g) (haside : Aside e e') : e'.Keeps b g := by
  obtain ⟨phase, stop, listeners, source, rfl⟩ := haside
  exact ⟨h.equipped.withSource source, h.positive, h.population, h.best⟩

/-- **Everything that can be reached keeps the budget.**  A step that fails either leaves the
generation in place or has put a new one in place before a listener failed. -/
theorem keeps_of_reached (h : e₀.Equipped b g) (hreached : Reached e₀ e) : e.Keeps b g := by
  induction hreached with
  | start hstart => exact keeps_of_start h hstart
  | restart _ hstart ih => exact keeps_of_start ih.equipped hstart
  | @step υ before s t _ ih =>
    rcases step_cases s before t with
      ⟨next, stop, listeners, hadvance, hstep⟩ | ⟨failure, source, hstep⟩
    · exact hstep ▸ (keeps_of_advance ih hadvance).aside (Aside.told next stop listeners)
    · exact hstep ▸ ih.aside (Aside.source _ source)
  | aside _ haside ih => exact ih.aside haside

end Evolution

/-! ## 4. Configurations -/

namespace Configuration

variable {c : Configuration} {d : Dataset} {given : Option Grammar} {source : Except Failure σ}

/-- What is looked up in a table is in the table. -/
theorem lookUp_ok {α : Type} {s : Setting} {table : String → Option α} {a : α}
    (h : c.lookUp s table = .ok a) : ∃ name, table name = some a := by
  unfold lookUp at h
  split at h
  · simp at h
  · simp at h
  · next name _ =>
    refine ⟨name, ?_⟩
    split at h
    · next a' ha =>
      rw [ha]
      simpa using h
    · simp at h
  · simp at h

theorem creator_ne_abstract {creator : Creator} (h : c.creator = .ok creator) :
    creator ≠ .abstract := by
  obtain ⟨name, hname⟩ := lookUp_ok h
  unfold Creator.ofName? at hname
  split at hname
  · cases hname
    simp
  · split at hname
    · cases hname
      simp
    · simp at hname

theorem budget_of_crossover {crossover : Crossover} (h : c.crossover = .ok crossover) :
    c.budget = .ok crossover.budget := by
  unfold Configuration.crossover at h
  obtain ⟨kind, _, h⟩ := Except.bind_ok h
  obtain ⟨budget, hbudget, h⟩ := Except.bind_ok h
  cases h
  rw [hbudget]
  cases kind <;> rfl

/-- A configured mutator has the configured budget and creator, if it has any. -/
theorem madeFor_of_mutatorOf {kind : Mutator.Kind} {m : Mutator} (hbudget : c.budget = .ok b)
    (h : c.mutatorOf kind = .ok m) : m.MadeFor b := by
  unfold mutatorOf at h
  split at h
  · next hkind =>
    obtain ⟨creator, hcreator, h⟩ := Except.bind_ok h
    obtain ⟨budget, hbudget', h⟩ := Except.bind_ok h
    obtain rfl : b = budget := Except.ok.inj (hbudget.symm.trans hbudget')
    cases h
    have hc := creator_ne_abstract hcreator
    rcases hkind with rfl | rfl
    · exact ⟨rfl, hc⟩
    · exact ⟨rfl, hc⟩
  · next hkind =>
    cases h
    cases kind with
    | subtree => exact absurd (.inl rfl) hkind
    | nodeInsertion => exact absurd (.inr rfl) hkind
    | changeNodeType => trivial
    | changeTerminal => trivial
    | nodeRemoval => trivial

theorem allMadeFor_of_mapM (hbudget : c.budget = .ok b) : ∀ {kinds : List Mutator.Kind}
    {members : List Mutator}, kinds.mapM c.mutatorOf = .ok members →
      Mutator.AllMadeFor b members
  | [], members, h => by
    rw [List.mapM_nil] at h
    cases h
    trivial
  | kind :: kinds, members, h => by
    rw [List.mapM_cons] at h
    obtain ⟨m, hm, h⟩ := Except.bind_ok h
    obtain ⟨ms, hms, h⟩ := Except.bind_ok h
    cases h
    exact ⟨madeFor_of_mutatorOf hbudget hm, allMadeFor_of_mapM hbudget hms⟩

theorem madeFor_of_mutator {m : Mutator} (hbudget : c.budget = .ok b)
    (h : c.mutator = .ok m) : m.MadeFor b := by
  unfold Configuration.mutator at h
  obtain ⟨kinds, _, h⟩ := Except.bind_ok h
  obtain ⟨members, hmembers, h⟩ := Except.bind_ok h
  have hall := allMadeFor_of_mapM hbudget hmembers
  split at h
  · cases h
    exact hall.1
  · unfold Mutator.combine at h
    split at h
    · cases h
    · next hne =>
      cases h
      exact ⟨by simpa using hne, hall⟩

/-- The parts that a configuration makes are an equipment for the configured budget. -/
theorem madeFor_of_parts {creator : Creator} {crossover : Crossover} {mutator : Mutator}
    {tournamentSize : Int} {evaluator : Evaluator} (hbudget : c.budget = .ok b)
    (hterminals : g.terminals ≠ []) (hcreator : c.creator = .ok creator)
    (hcrossover : c.crossover = .ok crossover) (hmutator : c.mutator = .ok mutator) :
    (⟨g, creator, crossover, mutator, tournamentSize, evaluator⟩ : Equipment).MadeFor b g where
  grammar := rfl
  terminals := hterminals
  creator := creator_ne_abstract hcreator
  crossover := Except.ok.inj ((budget_of_crossover hcrossover).symm.trans hbudget)
  mutator := madeFor_of_mutator hbudget hmutator

/-- The limits of a configuration bound trees by its settings. -/
theorem bounds_of_limits {maxLength maxDepth : Int} (h : c.limits = .ok l)
    (hlength : c.whole .maxTreeLength = .ok maxLength)
    (hdepth : c.whole .maxTreeDepth = .ok maxDepth) :
    l.maxLength = maxLength ∧ l.maxDepth = maxDepth := by
  unfold limits at h
  obtain ⟨_, _, h⟩ := Except.bind_ok h
  obtain ⟨_, _, h⟩ := Except.bind_ok h
  obtain ⟨maxLength', hlength', h⟩ := Except.bind_ok h
  obtain ⟨maxDepth', hdepth', h⟩ := Except.bind_ok h
  obtain ⟨_, _, h⟩ := Except.bind_ok h
  obtain ⟨_, _, h⟩ := Except.bind_ok h
  obtain ⟨_, _, h⟩ := Except.bind_ok h
  obtain ⟨_, _, h⟩ := Except.bind_ok h
  cases h
  exact ⟨Except.ok.inj (hlength'.symm.trans hlength), Except.ok.inj (hdepth'.symm.trans hdepth)⟩

omit [RandomSource σ] in
/-- **An evolution that a configuration describes is equipped for the configured budget.** -/
theorem equipped_of_evolutionWith {e : Evolution σ} {maxLength maxDepth : Int}
    (h : c.evolutionWith d given source = .ok e) (hg : c.grammarOver d given = .ok g)
    (hterminals : g.terminals ≠ []) (hlength : c.whole .maxTreeLength = .ok maxLength)
    (hdepth : c.whole .maxTreeDepth = .ok maxDepth) : e.Equipped ⟨maxLength, maxDepth⟩ g := by
  unfold evolutionWith at h
  obtain ⟨_, _, h⟩ := Except.bind_ok h
  obtain ⟨parts, hparts, h⟩ := Except.bind_ok h
  obtain ⟨limits, hlimits, h⟩ := Except.bind_ok h
  cases h
  obtain ⟨hmaxLength, hmaxDepth⟩ := bounds_of_limits hlimits hlength hdepth
  unfold partsWith at hparts
  obtain ⟨grammar, hgrammar, hparts⟩ := Except.bind_ok hparts
  obtain ⟨creator, hcreator, hparts⟩ := Except.bind_ok hparts
  obtain ⟨crossover, hcrossover, hparts⟩ := Except.bind_ok hparts
  obtain ⟨mutator, hmutator, hparts⟩ := Except.bind_ok hparts
  obtain ⟨tournamentSize, _, hparts⟩ := Except.bind_ok hparts
  obtain ⟨source, _, hparts⟩ := Except.bind_ok hparts
  obtain ⟨evaluator, _, hparts⟩ := Except.bind_ok hparts
  cases hparts
  obtain rfl : g = grammar := Except.ok.inj (hg.symm.trans hgrammar)
  exact ⟨hmaxLength, hmaxDepth, ⟨g, creator, crossover, mutator, tournamentSize, evaluator⟩,
    madeFor_of_parts (budget_eq hlength hdepth) hterminals hcreator hcrossover hmutator, rfl⟩

end Configuration

/-! ## 5. The whole run -/

namespace Evolution

variable {c : Configuration} {d : Dataset} {given : Option Grammar} {source : Except Failure σ}
  {e₀ e : Evolution σ}

/-- **No candidate of a run exceeds the configured budgets or uses a symbol that is not enabled.**
This holds for every configuration that passes its check, every dataset, every grammar with a
terminal, given or made from the configuration, and every random source; after a start and any
number of steps; for all candidates and for the best one, which there always is. -/
theorem candidates_within_budget {maxLength maxDepth : Int}
    (hmade : c.evolutionWith d given source = .ok e₀) (hgrammar : c.grammarOver d given = .ok g)
    (hterminals : g.terminals ≠ []) (hlength : c.whole .maxTreeLength = .ok maxLength)
    (hdepth : c.whole .maxTreeDepth = .ok maxDepth) (hreached : Reached e₀ e) :
    e.best.isSome ∧ ∀ x, x ∈ e.population ∨ e.best = some x → ∃ t, x.tree = some t ∧
      1 ≤ t.length ∧ (t.length : Int) ≤ maxLength ∧ 1 ≤ t.depth ∧ (t.depth : Int) ≤ maxDepth ∧
      ∀ u ∈ t.preorder, u.symbol.accepts u.children.length = true ∧ u.symbol ∈ g.enabledSymbols := by
  have hequipped := Configuration.equipped_of_evolutionWith hmade hgrammar hterminals hlength hdepth
  have hkeeps := keeps_of_reached hequipped hreached
  obtain ⟨best, hbest, hwithin⟩ := hkeeps.best
  refine ⟨by simp [hbest], fun x hx => ?_⟩
  have hx : x.Within ⟨maxLength, maxDepth⟩ g := by
    rcases hx with hx | hx
    · exact hkeeps.population x hx
    · obtain rfl : best = x := Option.some.inj (hbest.symm.trans hx)
      exact hwithin
  obtain ⟨t, ht, hholds, hoffers⟩ := hx
  exact ⟨t, ht, t.length_pos, hholds.length_le, t.depth_pos, hholds.depth_le,
    fun u hu => ⟨(hoffers u hu).accepts, (hoffers u hu).enabled⟩⟩

/-- The candidates of the small run after its first step: trees of at most a hundred nodes on at
most twelve levels. -/
theorem candidates_of_small_run : ∃ (g : Grammar) (e₀ e e' : Evolution Steady),
    Evolution.small = .ok e₀ ∧ Configuration.small.grammarOver .small none = .ok g ∧
      e₀.start = (.ok (), e) ∧ e.step .silent () = (.ok (), e', ()) ∧
      e'.best.isSome ∧ ∀ x, x ∈ e'.population ∨ e'.best = some x → ∃ t, x.tree = some t ∧
        1 ≤ t.length ∧ (t.length : Int) ≤ 100 ∧ 1 ≤ t.depth ∧ (t.depth : Int) ≤ 12 ∧
        ∀ u ∈ t.preorder,
          u.symbol.accepts u.children.length = true ∧ u.symbol ∈ g.enabledSymbols := by
  obtain ⟨e₀, e, e', hsmall, hstart, hstep⟩ := small_runs
  have hterminal : ((Configuration.small.grammarOver .small none).toOption.any
      fun g => !g.terminals.isEmpty) = true := by decide +kernel
  cases hgrammar : Configuration.small.grammarOver .small none with
  | error failure => simp [hgrammar, Except.toOption] at hterminal
  | ok g =>
    have hne : g.terminals ≠ [] := by simpa [hgrammar, Except.toOption] using hterminal
    have hreached : Reached e₀ e' := by
      have h := (Reached.start hstart).step .silent ()
      rwa [hstep] at h
    exact ⟨g, e₀, e, e', hsmall, rfl, hstart, hstep,
      candidates_within_budget hsmall hgrammar hne rfl rfl hreached⟩

end Evolution
end FormulaEvolution
