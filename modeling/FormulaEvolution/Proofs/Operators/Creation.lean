/-
# What creators make

Over a grammar with a terminal, both creators return a tree from every random source, and the tree
keeps both budgets and is made of candidates (`Creator.returns_createTree`).

The budget of nodes is kept because of how it is shared.  A node with `n` children over a budget of
`m + 1` nodes has `n ≤ m`, and each child in turn gets its share of what is left, at least one; a
share is so small that the children still to come keep one node each (`share_leaves_room`).
-/
import FormulaEvolution.Creation
import FormulaEvolution.Proofs.Random.Outcome
import FormulaEvolution.Proofs.Tree.Replacement
import FormulaEvolution.Random.Twister

namespace FormulaEvolution

/-! ## 1. Created trees -/

/-- A symbol can stand in a new node: it is a candidate, it takes so many children, and it stands for
what the node does. -/
structure Grammar.Offers (g : Grammar) (kind : Option TerminalKind) (s : Symbol) (count : Nat) :
    Prop where
  accepts : s.accepts count = true
  enabled : s ∈ g.enabledSymbols
  kind : s.kind = kind

/-- A symbol can stand in a created node: creators give no node more than five children unless it
needs more. -/
def Grammar.Creates (g : Grammar) (kind : Option TerminalKind) (s : Symbol) (count : Nat) : Prop :=
  g.Offers kind s count ∧ count ≤ max createdArityLimit s.least

/-- A tree that a creator may return for budgets of nodes and levels. -/
structure Grammar.Created (g : Grammar) (length depth : Nat) (t : Tree) : Prop where
  length_le : t.length ≤ length
  depth_le : t.depth ≤ depth
  creates : t.Everywhere g.Creates

theorem Grammar.Created.mono {g : Grammar} {length length' depth depth' : Nat} {t : Tree}
    (h : g.Created length depth t) (hl : length ≤ length') (hd : depth ≤ depth') :
    g.Created length' depth' t :=
  ⟨Nat.le_trans h.length_le hl, Nat.le_trans h.depth_le hd, h.creates⟩

theorem Grammar.Created.offers {g : Grammar} {length depth : Nat} {t : Tree}
    (h : g.Created length depth t) : t.Everywhere g.Offers :=
  h.creates.mono fun _ _ _ hc => hc.1

/-- A terminal takes no children. -/
theorem Symbol.accepts_zero_of_terminal {s : Symbol} (h : s.isTerminal = true) :
    s.accepts 0 = true := by
  have hmost : s.most = 0 := by simpa [isTerminal] using h
  have := s.least_le_most
  simp only [accepts, Bool.and_eq_true, decide_eq_true_eq]
  omega

namespace Tree

/-- A tree without subtrees satisfies a condition if its root does. -/
theorem everywhere_of_childless {P : NodeCondition} : ∀ {t : Tree}, t.children = [] →
    P t.kind? t.symbol 0 → Everywhere P t
  | .constant .., _, h => everywhere_constant.mpr h
  | .variable _, _, h => everywhere_variable.mpr h
  | .node s cs, hcs, h => by
    obtain rfl : cs = [] := hcs
    exact everywhere_node.mpr ⟨h, by simp⟩

end Tree

/-- A terminal among the candidates is a created tree, however small the budgets are. -/
theorem Grammar.created_of_terminal {g : Grammar} {t : Tree} (hcs : t.children = [])
    (hs : t.symbol ∈ g.enabledSymbols) (hterminal : t.symbol.isTerminal = true)
    (hkind : t.symbol.kind = t.kind?) : g.Created 1 1 t where
  length_le := by rw [Tree.length_eq, hcs]; simp [Tree.totalLength]
  depth_le := by rw [Tree.depth_eq, hcs]; simp [Tree.greatestDepth]
  creates := Tree.everywhere_of_childless hcs
    ⟨⟨Symbol.accepts_zero_of_terminal hterminal, hs, hkind⟩, Nat.zero_le _⟩

/-! ## 2. Drawing symbols and new nodes -/

variable {σ : Type} [RandomSource σ]

/-- The wheel stops at one of the symbols. -/
theorem returns_chooseSymbol {symbols : List Symbol} (h : symbols ≠ []) :
    (chooseSymbol symbols : Draws σ Symbol).Returns (· ∈ symbols) := by
  match symbols, h with
  | [s], _ => exact Draws.returns_pure (by simp)
  | s :: s' :: rest, h =>
    unfold chooseSymbol
    refine Draws.returns_ite (fun _ => Draws.returns_choose h) fun _ => ?_
    refine Draws.returns_bind Draws.returns_unit fun u _ => Draws.returns_pure ?_
    have hweights : (s :: s' :: rest).map (·.frequency) ≠ [] := by simp
    have hlt := wheelIndex_lt hweights u
    rw [List.length_map] at hlt
    rw [List.getD_eq_getElem?_getD, List.getElem?_eq_getElem hlt]
    exact List.getElem_mem hlt

/-- A new node has the symbol it is made for, stands for what that does, and has no children yet. -/
theorem returns_freshNode (s : Symbol) : (freshNode s : Draws σ Tree).Returns fun t =>
    t.symbol = s ∧ t.children = [] ∧ t.symbol.kind = t.kind? := by
  have hnode : ∀ t : Tree, t.symbol = s → t.children = [] → t.Sorted →
      t.symbol = s ∧ t.children = [] ∧ t.symbol.kind = t.kind? :=
    fun t hs hcs hsorted => ⟨hs, hcs, t.sorted_iff.mp hsorted⟩
  unfold freshNode
  refine Draws.returns_ite (fun hconstant => ?_) fun hconstant => ?_
  · refine Draws.returns_bind (Draws.returns_uniform _ _) fun v _ => Draws.returns_pure ?_
    exact hnode _ rfl rfl hconstant
  · refine Draws.returns_pure ?_
    simp only [Tree.bare, hconstant]
    cases hvariable : s.isVariable with
    | true => exact hnode _ rfl rfl hvariable
    | false => exact hnode _ rfl rfl ⟨by simpa using hconstant, hvariable⟩

omit [RandomSource σ] in
/-- A function stands for nothing but itself. -/
theorem Symbol.kind_of_function {s : Symbol} (h : s.isTerminal = false) : s.kind = none := by
  cases hk : s.kind with
  | none => rfl
  | some kind => simp [Symbol.isTerminal_of_kind (s := s) (by simp [hk])] at h

/-- A new node of a function can be given children. -/
theorem returns_freshNode_function {s : Symbol} (h : s.isTerminal = false) :
    (freshNode s : Draws σ Tree).Returns (· = .node s []) := by
  have hkind := Symbol.kind_of_function h
  have hconstant : s.isConstant = false := by simp [Symbol.isConstant, hkind]
  have hvariable : s.isVariable = false := by simp [Symbol.isVariable, hkind]
  simp only [freshNode, hconstant, Tree.bare, hvariable]
  exact Draws.returns_pure rfl

theorem returns_freshTerminal {g : Grammar} (h : g.terminals ≠ []) :
    (freshTerminal g : Draws σ Tree).Returns (g.Created 1 1) := by
  unfold freshTerminal
  rw [if_neg (by simpa using h)]
  refine Draws.returns_bind (returns_chooseSymbol h) fun s hs => ?_
  obtain ⟨henabled, hterminal⟩ := Grammar.terminal_of_mem hs
  refine (returns_freshNode s).mono fun t ⟨hsymbol, hcs, hkind⟩ => ?_
  exact Grammar.created_of_terminal hcs (hsymbol ▸ henabled) (hsymbol ▸ hterminal) hkind

/-! ## 3. Sharing nodes over children -/

/-- If what remains is enough for all slots, a share of it is enough for one, and leaves enough for
the others. -/
theorem share_leaves_room {need slots remaining : Nat} (h : (slots + 1) * need ≤ remaining) :
    need ≤ remaining / (slots + 1) ∧ remaining / (slots + 1) + slots * need ≤ remaining := by
  have hshare : need ≤ remaining / (slots + 1) := by
    rw [Nat.le_div_iff_mul_le (by omega), Nat.mul_comm]
    exact h
  have hall : (slots + 1) * (remaining / (slots + 1)) ≤ remaining := Nat.mul_div_le _ _
  have hothers : slots * need ≤ slots * (remaining / (slots + 1)) :=
    Nat.mul_le_mul_left slots hshare
  rw [Nat.add_mul, Nat.one_mul] at hall
  omega

theorem Tree.roomFor_ok {s : Symbol} {count : Nat} (h : count + 1 ≤ s.most) :
    Tree.roomFor s count = .ok () := by
  rw [Tree.roomFor, if_neg (by omega)]

omit [RandomSource σ] in
/-- **Slots are filled within what remains**, if that is enough for all of them, no tree is longer
than its share, and the symbol takes that many children. -/
theorem returns_fillSlots {s : Symbol} {make : Nat → Draws σ Tree} {need : Nat} {Q : Tree → Prop}
    (hneed : 1 ≤ need)
    (hmake : ∀ length, need ≤ length → (make length).Returns fun t => t.length ≤ length ∧ Q t) :
    ∀ {count slots remaining : Nat}, slots * need ≤ remaining → count + slots ≤ s.most →
      (fillSlots s make count slots remaining).Returns fun cs =>
        cs.length = slots ∧ Tree.totalLength cs ≤ remaining ∧ ∀ c ∈ cs, Q c
  | count, 0, remaining, _, _ => by
    rw [fillSlots]
    exact Draws.returns_pure ⟨rfl, Nat.zero_le _, by simp⟩
  | count, slots + 1, remaining, h, hmost => by
    obtain ⟨henough, hroom⟩ := share_leaves_room h
    have hshare : max 1 (remaining / (slots + 1)) = remaining / (slots + 1) := by omega
    rw [fillSlots, hshare]
    refine Draws.returns_bind (hmake _ henough) fun c ⟨hc, hQ⟩ => ?_
    refine Draws.returns_bind (P := fun _ => True)
      (Draws.returns_ofExcept (Tree.roomFor_ok (by omega)) trivial) fun _ _ => ?_
    refine Draws.returns_bind (returns_fillSlots hneed hmake (by omega) (by omega))
      fun cs ⟨hcs, htotal, hall⟩ => ?_
    refine Draws.returns_pure ⟨by simp [hcs], ?_, ?_⟩
    · simp only [Tree.totalLength]
      omega
    · intro d hd
      rcases List.mem_cons.mp hd with rfl | hd
      · exact hQ
      · exact hall d hd

omit [RandomSource σ] in
/-- A function node is given the children that are made for it. -/
theorem returns_addChildren {s : Symbol} {make : Nat → Draws σ Tree} {need arity length : Nat}
    {Q : Tree → Prop} (hneed : 1 ≤ need) (hmost : arity ≤ s.most)
    (hroom : arity * need + 1 ≤ length)
    (hmake : ∀ n, need ≤ n → (make n).Returns fun t => t.length ≤ n ∧ Q t) :
    (addChildren (.node s []) make arity length).Returns fun t =>
      ∃ cs, t = .node s cs ∧ cs.length = arity ∧ Tree.totalLength cs + 1 ≤ length ∧
        ∀ c ∈ cs, Q c := by
  have hfill := returns_fillSlots hneed hmake (show arity * need ≤ length - 1 by omega)
    (show 0 + arity ≤ s.most by omega)
  refine Draws.returns_bind hfill fun cs ⟨hcs, htotal, hall⟩ => Draws.returns_pure ?_
  exact ⟨cs, rfl, hcs, by omega, hall⟩

/-- A node over created trees is a created tree, one level deeper. -/
theorem Grammar.created_node {g : Grammar} {s : Symbol} {cs : List Tree} {length depth : Nat}
    (hs : g.Creates none s cs.length) (hlength : Tree.totalLength cs + 1 ≤ length)
    (hcs : ∀ c ∈ cs, c.depth ≤ depth ∧ c.Everywhere g.Creates) :
    g.Created length (depth + 1) (.node s cs) where
  length_le := by
    simp only [Tree.length]
    omega
  depth_le := by
    have hdepth : Tree.greatestDepth cs ≤ depth := Tree.greatestDepth_le fun c hc => (hcs c hc).1
    simp only [Tree.depth]
    omega
  creates := Tree.everywhere_node.mpr ⟨hs, fun c hc => (hcs c hc).2⟩

omit [RandomSource σ] in
/-- A function node with children that are grown one level lower. -/
theorem returns_addCreated {g : Grammar} {s : Symbol} {make : Nat → Draws σ Tree}
    {arity length depth : Nat} (hs : g.Creates none s arity) (harity : arity + 1 ≤ length)
    (hmake : ∀ n, 1 ≤ n → (make n).Returns (g.Created n depth)) :
    (addChildren (.node s []) make arity length).Returns (g.Created length (depth + 1)) := by
  have hmost : arity ≤ s.most := (Symbol.accepts_iff.mp hs.1.accepts).2
  have hroom : arity * 1 + 1 ≤ length := by rwa [Nat.mul_one]
  have hadd := returns_addChildren (Nat.le_refl 1) hmost hroom fun n hn =>
    (hmake n hn).mono fun t h => ⟨h.length_le, And.intro h.depth_le h.creates⟩
  refine hadd.mono ?_
  rintro t ⟨cs, rfl, hcs, hlength, hall⟩
  exact Grammar.created_node (hcs ▸ hs) hlength hall

/-! ## 4. How many children a node gets -/

namespace Creator

variable {g : Grammar} {s : Symbol} {length : Nat}

/-- A count from the least up to the cap is open to a node. -/
theorem creates_of_cap {n : Nat} (hs : s ∈ g.enabledSymbols) (hfunction : s.isTerminal = false)
    (hleast : s.least ≤ n) (hcap : n ≤ max s.least (arityCap s length)) :
    g.Creates none s n := by
  have := s.least_le_most
  simp only [arityCap] at hcap
  refine ⟨⟨?_, hs, Symbol.kind_of_function hfunction⟩, ?_⟩
  · rw [Symbol.accepts_iff]
    omega
  · simp only [createdArityLimit] at *
    omega

theorem cap_fits {n : Nat} (hfits : s.least + 1 ≤ length)
    (hcap : n ≤ max s.least (arityCap s length)) : n + 1 ≤ length := by
  simp only [arityCap] at hcap
  omega

theorem returns_growArity (s : Symbol) (length : Nat) :
    (growArity s length : Draws σ Nat).Returns fun n =>
      s.least ≤ n ∧ n ≤ max s.least (arityCap s length) := by
  unfold growArity
  refine Draws.returns_ite (fun _ => Draws.returns_pure (by omega)) fun hcap => ?_
  refine Draws.returns_bind (Draws.returns_span (by omega)) fun n hn => Draws.returns_pure ?_
  omega

theorem fullArity_bounds (s : Symbol) (length : Nat) :
    s.least ≤ fullArity s length ∧ fullArity s length ≤ max s.least (arityCap s length) := by
  simp only [fullArity]
  omega

/-- A function that fits leaves room for the children it needs. -/
theorem room_of_fitsInto (hfits : fitsInto s length = true) (hterminal : s.isTerminal = false) :
    s.least + 1 ≤ length := by
  simp only [fitsInto, hterminal, Bool.false_or, decide_eq_true_eq] at hfits
  omega

/-! ## 5. The creators -/

/-- **Growing returns a created tree.**  The induction is over the levels; one level left, or none,
ends with a terminal. -/
theorem returns_growNode (hg : g.terminals ≠ []) : ∀ (depth length : Nat), 1 ≤ length →
    (growNode g depth length : Draws σ Tree).Returns (g.Created length (max 1 depth))
  | 0, length, hl => (returns_freshTerminal hg).mono fun _ h => h.mono hl (by omega)
  | 1, length, hl => (returns_freshTerminal hg).mono fun _ h => h.mono hl (by omega)
  | depth + 2, length, hl => by
    simp only [growNode]
    refine Draws.returns_ite (fun _ => ?_) fun hopen => ?_
    · exact (returns_freshTerminal hg).mono fun _ h => h.mono hl (by omega)
    · have hcandidates : g.enabledSymbols.filter (fitsInto · length) ≠ [] := by
        intro h
        simp [h] at hopen
      refine Draws.returns_bind (returns_chooseSymbol hcandidates) fun s hs => ?_
      obtain ⟨henabled, hfits⟩ := List.mem_filter.mp hs
      cases hterminal : s.isTerminal with
      | true =>
        refine Draws.returns_bind (returns_freshNode s) fun t ⟨hsymbol, hcs, hkind⟩ => ?_
        have h := Grammar.created_of_terminal hcs (hsymbol ▸ henabled) (hsymbol ▸ hterminal) hkind
        exact Draws.returns_pure (h.mono hl (by omega))
      | false =>
        refine Draws.returns_bind (returns_freshNode_function hterminal) fun t ht => ?_
        subst ht
        refine Draws.returns_bind (returns_growArity s length) fun n ⟨hleast, hcap⟩ => ?_
        have hmake := fun m hm => returns_growNode hg (depth + 1) m hm
        exact (returns_addCreated (creates_of_cap henabled hterminal hleast hcap)
          (cap_fits (room_of_fitsInto hfits hterminal) hcap) hmake).mono
            fun _ h => h.mono (Nat.le_refl _) (by omega)

/-- **Growing with functions as long as they fit returns a created tree.** -/
theorem returns_fullNode (hg : g.terminals ≠ []) : ∀ (depth length : Nat), 1 ≤ length →
    (fullNode g depth length : Draws σ Tree).Returns (g.Created length (max 1 depth))
  | 0, length, hl => (returns_freshTerminal hg).mono fun _ h => h.mono hl (by omega)
  | 1, length, hl => (returns_freshTerminal hg).mono fun _ h => h.mono hl (by omega)
  | depth + 2, length, hl => by
    simp only [fullNode]
    refine Draws.returns_ite (fun _ => ?_) fun hopen => ?_
    · exact (returns_freshTerminal hg).mono fun _ h => h.mono hl (by omega)
    · have hfunctions : g.functions.filter (fitsInto · length) ≠ [] := by
        intro h
        simp [h] at hopen
      refine Draws.returns_bind (returns_chooseSymbol hfunctions) fun s hs => ?_
      obtain ⟨hfunction, hfits⟩ := List.mem_filter.mp hs
      obtain ⟨henabled, hterminal⟩ := Grammar.function_of_mem hfunction
      obtain ⟨hleast, hcap⟩ := fullArity_bounds s length
      refine Draws.returns_bind (returns_freshNode_function hterminal) fun t ht => ?_
      subst ht
      have hmake := fun m hm => returns_fullNode hg (depth + 1) m hm
      exact (returns_addCreated (creates_of_cap henabled hterminal hleast hcap)
        (cap_fits (room_of_fitsInto hfits hterminal) hcap) hmake).mono
          fun _ h => h.mono (Nat.le_refl _) (by omega)

/-- **Creating a tree never fails, and the tree keeps its budgets**, for both creators, all budgets
of at least one and every grammar with a terminal. -/
theorem returns_createTree {c : Creator} (hc : c ≠ .abstract) (hg : g.terminals ≠ [])
    {maxLength maxDepth : Int} (hl : 1 ≤ maxLength) (hd : 1 ≤ maxDepth) :
    (c.createTree g maxLength maxDepth : Draws σ Tree).Returns
      (g.Created maxLength.toNat maxDepth.toNat) := by
  unfold createTree
  rw [if_neg (by omega), if_neg (by omega), if_neg (by simpa using hg)]
  have hdepth : max 1 maxDepth.toNat = maxDepth.toNat := by omega
  match c, hc with
  | .grow, _ => exact hdepth ▸ returns_growNode hg maxDepth.toNat maxLength.toNat (by omega)
  | .full, _ => exact hdepth ▸ returns_fullNode hg maxDepth.toNat maxLength.toNat (by omega)

/-- **Created trees keep both budgets, the bounds of their symbols and the candidates.**  From every
source both creators return a tree, whatever the functions need and take: with none of their
children needed, with more than five needed, or with room for any number. -/
theorem createTree_within_budgets {c : Creator} (hc : c ≠ .abstract) (hg : g.terminals ≠ [])
    {maxLength maxDepth : Int} (hl : 1 ≤ maxLength) (hd : 1 ≤ maxDepth) :
    (c.createTree g maxLength maxDepth : Draws σ Tree).Returns fun t =>
      (1 ≤ t.length ∧ (t.length : Int) ≤ maxLength) ∧
      (1 ≤ t.depth ∧ (t.depth : Int) ≤ maxDepth) ∧
      ∀ u ∈ t.preorder,
        (u.symbol.least ≤ u.children.length ∧ u.children.length ≤ u.symbol.most) ∧
        u.children.length ≤ max 5 u.symbol.least ∧
        u.symbol ∈ g.enabledSymbols := by
  refine (returns_createTree hc hg hl hd).mono fun t h => ?_
  have hlength := h.length_le
  have hdepth := h.depth_le
  refine ⟨⟨t.length_pos, by omega⟩, ⟨t.depth_pos, by omega⟩, ?_⟩
  intro u hu
  obtain ⟨hoffers, hfew⟩ := h.creates u hu
  have haccepts := hoffers.accepts
  simp only [Symbol.accepts, Bool.and_eq_true, decide_eq_true_eq] at haccepts
  exact ⟨haccepts, hfew, hoffers.enabled⟩

end Creator

/-- A function that cannot do anything, over a range of children. -/
def Symbol.idle (name : String) (least most : Nat) (h : least ≤ most) : Symbol where
  name
  least
  most
  kind := none
  least_le_most := h
  most_of_kind hkind := by cases hkind

/-- A grammar with a function that needs none of its children, one that needs seven, one that takes
up to a hundred, and a variable. -/
def Grammar.assorted : Grammar where
  name := "assorted"
  entries := [
    { symbol := .idle "perhaps" 0 3 (by decide) },
    { symbol := .idle "seven" 7 7 (by decide) },
    { symbol := .idle "many" 1 100 (by decide) },
    { symbol := .forVariable "x" }]
  distinct := by decide

theorem Grammar.assorted_terminals : Grammar.assorted.terminals ≠ [] :=
  List.ne_nil_of_mem (a := .forVariable "x") (by simp [terminals, enabledSymbols, assorted,
    Symbol.isTerminal, Symbol.forVariable])

/-- Trees of both creators over the assorted grammar keep thirty nodes and four levels. -/
theorem Creator.createTree_assorted :
    (Creator.grow.createTree .assorted 30 4 : Draws Twister Tree).Returns
      (fun t => (t.length : Int) ≤ 30 ∧ (t.depth : Int) ≤ 4) ∧
    (Creator.full.createTree .assorted 30 4 : Draws Twister Tree).Returns
      (fun t => (t.length : Int) ≤ 30 ∧ (t.depth : Int) ≤ 4) := by
  constructor
  · refine (Creator.createTree_within_budgets (by decide) Grammar.assorted_terminals (by decide)
      (by decide)).mono ?_
    rintro t ⟨hlength, hdepth, -⟩
    exact ⟨hlength.2, hdepth.2⟩
  · refine (Creator.createTree_within_budgets (by decide) Grammar.assorted_terminals (by decide)
      (by decide)).mono ?_
    rintro t ⟨hlength, hdepth, -⟩
    exact ⟨hlength.2, hdepth.2⟩

end FormulaEvolution
