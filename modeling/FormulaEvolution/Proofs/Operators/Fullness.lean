/-
# Trees that fill their levels

`Creator.full` uses functions as long as they fit and gives every node as many children as a creator
may.  With a budget of enough nodes nothing stops it but the levels: every branch ends on the last
one, and a node has as many children as its symbol allows (`Creator.createTree_full`).

Enough is `Grammar.fullLength`, which counts a tree whose nodes all have as many children as the
widest function gets.  The functions of a grammar differ in width and earlier children spend what they
like, so what a later sibling finds cannot be computed; but it is enough at every node, because

* a function gets no more children than the widest one, so a budget for `d + 1` levels holds one for
  `d` levels for each of them, and
* a share of such a budget is a budget for `d` levels, and leaves one for each of the children still
  to come (`share_leaves_room`), since no child is longer than its share.
-/
import FormulaEvolution.Proofs.Operators.Creation

namespace FormulaEvolution

/-! ## 1. How much is enough -/

/-- How many children a creator gives a node when it gives as many as it may. -/
def Symbol.createdArity (s : Symbol) : Nat := max s.least (min s.most createdArityLimit)

/-- The largest number of children that a function of a grammar gets. -/
def Grammar.widest (g : Grammar) : Nat := ((g.functions.map (·.createdArity)).max?).getD 0

/-- How many nodes are enough to fill a number of levels: one for the first level, and for each of the
most children that its node may have enough to fill the levels below. -/
def Grammar.fullLength (g : Grammar) : Nat → Nat
  | 0 => 0
  | levels + 1 => 1 + g.widest * g.fullLength levels

section Widest

variable {g : Grammar} {s : Symbol}

/-- A symbol takes the children that it gets. -/
theorem Symbol.createdArity_le_most (s : Symbol) : s.createdArity ≤ s.most := by
  have := s.least_le_most
  simp only [createdArity]
  omega

/-- A function gets a child. -/
theorem Symbol.createdArity_pos (h : s.isTerminal = false) : 1 ≤ s.createdArity := by
  have hmost : s.most ≠ 0 := by simpa [isTerminal] using h
  simp only [createdArity, createdArityLimit]
  omega

theorem Grammar.createdArity_le_widest (h : s ∈ g.functions) : s.createdArity ≤ g.widest := by
  have hmem : s.createdArity ∈ g.functions.map (·.createdArity) := List.mem_map_of_mem h
  unfold widest
  cases hmax : (g.functions.map (·.createdArity)).max? with
  | none => simp [List.max?_eq_none_iff.mp hmax] at hmem
  | some widest => exact (List.max?_eq_some_iff.mp hmax).2 _ hmem

theorem Grammar.fullLength_pos (g : Grammar) (levels : Nat) : 1 ≤ g.fullLength (levels + 1) := by
  simp only [fullLength]
  omega

/-- **Enough for one more level is enough for each child of a function**, and for the node itself. -/
theorem Grammar.room_for_children {levels length : Nat} (h : s ∈ g.functions)
    (hlength : g.fullLength (levels + 1) ≤ length) :
    s.createdArity * g.fullLength levels + 1 ≤ length := by
  have hchildren : s.createdArity * g.fullLength levels ≤ g.widest * g.fullLength levels :=
    Nat.mul_le_mul_right _ (createdArity_le_widest h)
  simp only [fullLength] at hlength
  omega

end Widest

/-! ## 2. Filled trees -/

namespace Tree

/-- All branches end on the last of a number of levels, and above it every node has as many children
as a creator gives to its symbol. -/
def FilledTo (levels : Nat) (t : Tree) : Prop :=
  ∀ path u, t.at? path = some u →
    (u.children = [] → path.length + 1 = levels) ∧
    (u.children ≠ [] → u.children.length = u.symbol.createdArity)

theorem at?_of_childless {t u : Tree} (h : t.children = []) {path : Path}
    (hu : t.at? path = some u) : path = [] ∧ u = t := by
  cases path with
  | nil => exact ⟨rfl, by simpa using hu.symm⟩
  | cons i path => simp [at?, h] at hu

/-- A tree without subtrees fills one level. -/
theorem filledTo_one {t : Tree} (h : t.children = []) : t.FilledTo 1 := by
  intro path u hu
  obtain ⟨rfl, rfl⟩ := at?_of_childless h hu
  exact ⟨fun _ => rfl, fun hcs => absurd h hcs⟩

/-- A node over trees that fill so many levels fills one more. -/
theorem filledTo_node {s : Symbol} {cs : List Tree} {levels : Nat} (hcount : cs.length = s.createdArity)
    (hpos : 1 ≤ s.createdArity) (hcs : ∀ c ∈ cs, c.FilledTo levels) :
    (Tree.node s cs).FilledTo (levels + 1) := by
  intro path u hu
  cases path with
  | nil =>
    obtain rfl : Tree.node s cs = u := by simpa using hu
    refine ⟨?_, fun _ => hcount⟩
    intro hnone
    have hlength : cs.length = 0 := congrArg List.length hnone
    omega
  | cons i path =>
    rw [at?_cons, Option.bind_eq_some_iff] at hu
    obtain ⟨c, hc, hu⟩ := hu
    obtain ⟨hleaf, hinner⟩ := hcs c (List.mem_of_getElem? hc) path u hu
    refine ⟨?_, hinner⟩
    intro hnone
    rw [List.length_cons, hleaf hnone]

theorem children_eq_nil_of_length {t : Tree} (h : t.length ≤ 1) : t.children = [] := by
  rw [length_eq] at h
  cases hcs : t.children with
  | nil => rfl
  | cons c cs =>
    have hc := c.length_pos
    simp only [hcs, totalLength] at h
    omega

end Tree

/-! ## 3. Filling the levels -/

namespace Creator

variable {σ : Type} [RandomSource σ] {g : Grammar} {s : Symbol}

/-- A function gets all its children if the length has room for them. -/
theorem fullArity_eq {length : Nat} (h : s.createdArity + 1 ≤ length) :
    fullArity s length = s.createdArity := by
  simp only [Symbol.createdArity] at h
  simp only [fullArity, arityCap, Symbol.createdArity]
  omega

theorem fitsInto_of_createdArity {length : Nat} (h : s.createdArity + 1 ≤ length) :
    fitsInto s length = true := by
  have hleast : 1 + s.least ≤ length := by
    simp only [Symbol.createdArity] at h
    omega
  simp [fitsInto, hleast]

/-- A terminal fills one level. -/
theorem returns_freshTerminal_filled (hterminals : g.terminals ≠ []) {length : Nat}
    (hlength : 1 ≤ length) :
    (freshTerminal g : Draws σ Tree).Returns fun t => t.length ≤ length ∧ t.FilledTo 1 := by
  refine (returns_freshTerminal hterminals).mono fun t h => ?_
  have hone : t.length ≤ 1 := h.length_le
  exact ⟨by omega, Tree.filledTo_one (Tree.children_eq_nil_of_length hone)⟩

/-- **With enough nodes all levels are filled.**  The induction is over the levels.  Neither of the
two ways to end early is open: the length is more than one, and every function fits into it. -/
theorem returns_fullNode_filled (hterminals : g.terminals ≠ []) (hfunctions : g.functions ≠ []) :
    ∀ (levels length : Nat), g.fullLength (levels + 1) ≤ length →
      (fullNode g (levels + 1) length : Draws σ Tree).Returns fun t =>
        t.length ≤ length ∧ t.FilledTo (levels + 1)
  | 0, length, h => returns_freshTerminal_filled hterminals (by simpa [Grammar.fullLength] using h)
  | levels + 1, length, h => by
    have hneed := g.fullLength_pos levels
    have hroom : ∀ s ∈ g.functions, s.createdArity + 1 ≤ length := by
      intro s hs
      have hchildren := Grammar.room_for_children hs h
      have harity : s.createdArity * 1 ≤ s.createdArity * g.fullLength (levels + 1) :=
        Nat.mul_le_mul_left _ hneed
      omega
    have hall : g.functions.filter (fitsInto · length) = g.functions :=
      List.filter_eq_self.mpr fun s hs => fitsInto_of_createdArity (hroom s hs)
    obtain ⟨f, hf⟩ := List.exists_mem_of_ne_nil _ hfunctions
    have hmany : ¬length ≤ 1 := by
      have hpos := Symbol.createdArity_pos (Grammar.function_of_mem hf).2
      have hfits := hroom f hf
      omega
    simp only [fullNode, hall]
    rw [if_neg (by simp [hmany, hfunctions])]
    refine Draws.returns_bind (returns_chooseSymbol hfunctions) fun s hs => ?_
    have hterminal := (Grammar.function_of_mem hs).2
    refine Draws.returns_bind (returns_freshNode_function hterminal) fun t ht => ?_
    subst ht
    rw [fullArity_eq (hroom s hs)]
    have hmake := returns_fullNode_filled hterminals hfunctions levels
    have hadd := returns_addChildren hneed s.createdArity_le_most (Grammar.room_for_children hs h)
      hmake
    refine hadd.mono ?_
    rintro t ⟨cs, rfl, hcount, hlength, hfilled⟩
    refine ⟨?_, Tree.filledTo_node hcount (Symbol.createdArity_pos hterminal) hfilled⟩
    simp only [Tree.length]
    omega

/-- **With enough nodes every branch ends on the last level**, and every node above it has as many
children as its symbol may be given, from every source and over every grammar with a terminal and a
function. -/
theorem createTree_full (hterminals : g.terminals ≠ []) (hfunctions : g.functions ≠ [])
    {maxLength maxDepth : Int} (hd : 1 ≤ maxDepth)
    (hl : (g.fullLength maxDepth.toNat : Int) ≤ maxLength) :
    (Creator.full.createTree g maxLength maxDepth : Draws σ Tree).Returns fun t =>
      ∀ path u, t.at? path = some u →
        (u.children = [] → (path.length : Int) = maxDepth - 1) ∧
        (u.children ≠ [] → u.children.length = max u.symbol.least (min u.symbol.most 5)) := by
  obtain ⟨levels, rfl⟩ : ∃ levels : Nat, maxDepth = levels + 1 := ⟨(maxDepth - 1).toNat, by omega⟩
  have hlevels : ((levels : Int) + 1).toNat = levels + 1 := by omega
  rw [hlevels] at hl
  have hpos := g.fullLength_pos levels
  have hfilled := returns_fullNode_filled (σ := σ) hterminals hfunctions levels maxLength.toNat
    (by omega)
  unfold createTree
  rw [if_neg (by omega), if_neg (by omega), if_neg (by simpa using hterminals)]
  rw [createNode, hlevels]
  refine hfilled.mono ?_
  rintro t ⟨-, hall⟩ path u hu
  obtain ⟨hleaf, hinner⟩ := hall path u hu
  refine ⟨?_, hinner⟩
  intro hnone
  have := hleaf hnone
  omega

end Creator

theorem Grammar.assorted_functions : Grammar.assorted.functions ≠ [] :=
  List.ne_nil_of_mem (a := .idle "seven" 7 7 (by decide)) (by simp [functions, enabledSymbols,
    assorted, Symbol.isTerminal, Symbol.idle])

/-- Over the assorted grammar, whose widest function needs seven children, 57 nodes are enough to fill
three levels. -/
theorem Creator.createTree_full_assorted :
    Grammar.assorted.fullLength 3 = 57 ∧
    (Creator.full.createTree .assorted 57 3 : Draws Twister Tree).Returns fun t =>
      ∀ path u, t.at? path = some u → u.children = [] → (path.length : Int) = 2 := by
  have hlength : Grammar.assorted.fullLength 3 = 57 := by decide +kernel
  have henough : (Grammar.assorted.fullLength (3 : Int).toNat : Int) ≤ 57 := by
    rw [show (3 : Int).toNat = 3 from rfl, hlength]
    decide
  constructor
  · exact hlength
  · refine (Creator.createTree_full Grammar.assorted_terminals Grammar.assorted_functions (by decide)
      henough).mono ?_
    intro t hall path u hu
    exact (hall path u hu).1

end FormulaEvolution
