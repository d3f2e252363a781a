/-
# Trees come back from their documents

A tree over the symbols of a grammar is read back from its document as it was (`Tree.read_toJson`):
the same nodes of the same sorts in the same places, and the same constants to the bit.

Three forms of nodes are written, and the one that is there is told by the symbol: a symbol of
constants has a value beside it and a symbol of a variable has nothing, which is why the tree has
to be `Tree.Made`.  The reader looks symbols up by name, and names in a grammar are distinct,
whoever is enabled.  It adds children one by one and refuses one too many, so the tree has to pass
its check.

No object in a document has two fields of one name, so the text of the document is read back as
the document.
-/
import FormulaEvolution.Proofs.Json.RoundTrip
import FormulaEvolution.Proofs.Tree.Replacement
import FormulaEvolution.Tree.Document

namespace FormulaEvolution

/-! ## 1. Symbols by name -/

namespace Grammar

/-- A symbol of a grammar is found by its name, since no other one has it. -/
theorem symbol?_of_mem {g : Grammar} {s : Symbol} (h : s ∈ g.symbols) :
    g.symbol? s.name = some s := by
  obtain ⟨e, he, rfl⟩ := List.mem_map.mp h
  have hfound : (g.entries.find? (·.symbol.name = e.symbol.name)).isSome := by
    rw [List.find?_isSome]
    exact ⟨e, he, by simp⟩
  obtain ⟨e', he'⟩ := Option.isSome_iff_exists.mp hfound
  have hname : e'.symbol.name = e.symbol.name := by simpa using List.find?_some he'
  have hsame : e' = e :=
    List.inj_on_of_nodup_map g.distinct (List.mem_of_find?_eq_some he') he hname
  rw [symbol?, show Grammar.entry? g e.symbol.name = some e' from he', hsame, Option.map_some]

/-- Who is enabled makes no difference to what the symbols are. -/
@[simp] theorem symbols_setEnabledBy (g : Grammar) (enabled : Entry → Bool) :
    (g.setEnabledBy enabled).symbols = g.symbols := by
  simp [symbols, setEnabledBy]

end Grammar

/-! ## 2. Nodes -/

namespace Tree

/-- A node that a reader with the grammar makes out of what is written about it. -/
structure Legible (g : Grammar) (u : Tree) : Prop where
  sorted : u.Sorted
  accepts : u.symbol.accepts u.children.length = true
  known : u.symbol ∈ g.symbols

section Nodes

variable {g : Grammar} {s : Symbol}

/-- A node is put together from what its fields hold. -/
theorem read_object {fields : List (String × Json)} {value : Float} {cs : List Tree}
    (hsymbol : readSymbol g fields = .ok s)
    (hvalue : (if s.isConstant then readConstant fields else .ok 0.0) = .ok value)
    (hcs : readSubtrees true g s fields = .ok cs) :
    read true g (.object fields) = assemble true s value cs := by
  rw [read, hsymbol]
  by_cases hconstant : s.isConstant = true
  · rw [if_pos hconstant] at hvalue
    simp only [hconstant, if_true, hvalue, hcs, bind, Except.bind]
  · rw [if_neg hconstant] at hvalue
    cases hvalue
    simp only [hconstant, hcs, bind, Except.bind]
    rfl

/-- A symbol is read back from its name. -/
theorem readSymbol_of_mem (h : s ∈ g.symbols) (fields : List (String × Json)) :
    readSymbol g (("symbol", .string s.name) :: fields) = .ok s := by
  have hname : Dictionary.value? (("symbol", Json.string s.name) :: fields) "symbol" =
      some (.string s.name) := by
    simp [Dictionary.value?]
  simp only [readSymbol, hname, Grammar.symbol?_of_mem h]

theorem read_constant {value : Float} (h : Legible g (.constant s value)) :
    read true g (toJson (.constant s value)) = .ok (.constant s value) := by
  have hconstant : s.isConstant = true := h.sorted
  have haccepts : s.accepts 0 = true := h.accepts
  have hknown : s ∈ g.symbols := h.known
  have hread : read true g (toJson (.constant s value)) = assemble true s value [] :=
    read_object (readSymbol_of_mem hknown _) (by rw [if_pos hconstant]; rfl) rfl
  rw [hread]
  simp [assemble, haccepts, bare, hconstant]

theorem read_variable (h : Legible g (.variable s)) :
    read true g (toJson (.variable s)) = .ok (.variable s) := by
  have hvariable : s.isVariable = true := h.sorted
  have hconstant : s.isConstant = false := by
    rw [Symbol.isVariable, decide_eq_true_eq] at hvariable
    simp [Symbol.isConstant, hvariable]
  have haccepts : s.accepts 0 = true := h.accepts
  have hknown : s ∈ g.symbols := h.known
  have hread : read true g (toJson (.variable s)) = assemble true s 0.0 [] :=
    read_object (readSymbol_of_mem hknown _) (by rw [if_neg (by simp [hconstant])]) rfl
  rw [hread]
  simp [assemble, haccepts, bare, hconstant, hvariable]

/-- Children that are read back one by one are read back together if there is room for them. -/
theorem readList_toJsonAll {cs : List Tree} (hcs : ∀ c ∈ cs, read true g (toJson c) = .ok c)
    (count : Nat) (hroom : count + cs.length ≤ s.most) :
    readList true g s count (toJsonAll cs) = .ok cs := by
  induction cs generalizing count with
  | nil => rw [toJsonAll, readList]
  | cons c cs ih =>
    rw [List.length_cons] at hroom
    have hcount : roomFor s count = .ok () := by rw [roomFor, if_neg (by omega)]
    have hrest := ih (fun d hd => hcs d (List.mem_cons_of_mem c hd)) (count + 1) (by omega)
    rw [toJsonAll, readList, hcs c List.mem_cons_self]
    simp only [hcount, hrest, bind, Except.bind]
    rfl

theorem read_node {cs : List Tree} (h : Legible g (.node s cs))
    (hcs : ∀ c ∈ cs, read true g (toJson c) = .ok c) :
    read true g (toJson (.node s cs)) = .ok (.node s cs) := by
  obtain ⟨hconstant, hvariable⟩ : s.isConstant = false ∧ s.isVariable = false := h.sorted
  have haccepts : s.accepts cs.length = true := h.accepts
  have hknown : s ∈ g.symbols := h.known
  have hmost : cs.length ≤ s.most := (Symbol.accepts_iff.mp haccepts).2
  have hlist : readSubtrees true g s
      [("symbol", .string s.name), ("subtrees", .list (toJsonAll cs))] = .ok cs := by
    rw [readSubtrees, if_neg (by decide), readSubtrees, if_pos rfl, readItems]
    exact readList_toJsonAll hcs 0 (by omega)
  have hread : read true g (toJson (.node s cs)) = assemble true s 0.0 cs :=
    read_object (readSymbol_of_mem hknown _) (by rw [if_neg (by simp [hconstant])]) hlist
  rw [hread, assemble, haccepts, Bool.true_or, if_pos rfl]
  cases cs with
  | nil => simp [bare, hconstant, hvariable]
  | cons c cs => rfl

end Nodes

/-! ## 3. Trees -/

mutual

/-- **A tree is read back** if each of its nodes is. -/
theorem read_toJson {g : Grammar} : ∀ {t : Tree}, (∀ u ∈ t.preorder, u.Legible g) →
    read true g (toJson t) = .ok t
  | .constant _ _, h => read_constant (h _ (by simp [preorder]))
  | .variable _, h => read_variable (h _ (by simp [preorder]))
  | .node s cs, h => by
    refine read_node (h _ (by simp [preorder])) (readAll_toJson fun c hc u hu => h u ?_)
    exact List.mem_cons_of_mem _ (mem_preorderAll.mpr ⟨c, hc, hu⟩)

theorem readAll_toJson {g : Grammar} : ∀ {cs : List Tree},
    (∀ c ∈ cs, ∀ u ∈ c.preorder, u.Legible g) → ∀ c ∈ cs, read true g (toJson c) = .ok c
  | [], _, _, hc => absurd hc List.not_mem_nil
  | d :: ds, h, c, hc => by
    rcases List.mem_cons.mp hc with hfirst | hc
    · rw [hfirst]
      exact read_toJson (h d List.mem_cons_self)
    · exact readAll_toJson (fun b hb => h b (List.mem_cons_of_mem d hb)) c hc

end

mutual

theorem distinct_toJson : ∀ t : Tree, t.toJson.Distinct
  | .constant s value => by simp [toJson, Json.Distinct, Json.DistinctFields]
  | .variable s => by simp [toJson, Json.Distinct, Json.DistinctFields]
  | .node s cs => by
    simp only [toJson, Json.Distinct, Json.DistinctFields, and_true, true_and]
    exact ⟨by simp, distinct_toJsonAll cs⟩

theorem distinct_toJsonAll : ∀ cs : List Tree, Json.DistinctItems (toJsonAll cs)
  | [] => by simp [toJsonAll, Json.DistinctItems]
  | c :: cs => by
    rw [toJsonAll, Json.DistinctItems]
    exact ⟨distinct_toJson c, distinct_toJsonAll cs⟩

end

end Tree

/-! ## 4. Documents -/

theorem distinct_treeDocument (t : Option Tree) : (treeDocument t).Distinct := by
  have hroot : ((t.map Tree.toJson).getD .null).Distinct := by
    cases t with
    | none => simp [Json.Distinct]
    | some t => exact t.distinct_toJson
  simp only [treeDocument, Json.Distinct, Json.DistinctFields, and_true]
  exact ⟨by simp, hroot⟩

/-- The text of a tree's document is read back as the tree if each of its nodes is legible. -/
theorem treeOfJson_of_legible {g : Grammar} {t : Tree} (h : ∀ u ∈ t.preorder, u.Legible g) :
    treeOfJson g (treeJson (some t)) = .ok (some t) := by
  have hroot : treeOfDocument g (treeDocument (some t)) = (Tree.ofJson g t.toJson).map some := by
    cases t <;> rfl
  rw [treeOfJson, treeJson, Json.read_write (distinct_treeDocument (some t))]
  show treeOfDocument g (treeDocument (some t)) = .ok (some t)
  rw [hroot, Tree.ofJson, Tree.read_toJson h]
  rfl

/-- **A tree comes back from its document**, as a value and as a text: the same nodes of the same
sorts in the same places, and the same constants.  The empty tree does as well, and it does not
matter who is enabled in the grammar. -/
theorem tree_of_document {g : Grammar} {t : Option Tree} (hmade : ∀ u ∈ t, u.Made)
    (hcheck : ∀ u ∈ t, u.check = .ok ())
    (hsymbols : ∀ u ∈ t, ∀ v ∈ u.preorder, v.symbol ∈ g.symbols) (enabled : Entry → Bool) :
    treeOfDocument (g.setEnabledBy enabled) (treeDocument t) = .ok t ∧
      treeOfJson (g.setEnabledBy enabled) (treeJson t) = .ok t := by
  have hdocument : treeOfDocument (g.setEnabledBy enabled) (treeDocument t) = .ok t := by
    cases t with
    | none => rfl
    | some t =>
      have hread : Tree.ofJson (g.setEnabledBy enabled) t.toJson = .ok t := by
        refine Tree.read_toJson fun u hu => ⟨hmade t rfl u hu, ?_, ?_⟩
        · exact (t.check_eq_ok_iff.mp (hcheck t rfl)) u hu
        · rw [Grammar.symbols_setEnabledBy]
          exact hsymbols t rfl u hu
      have hroot : treeOfDocument (g.setEnabledBy enabled) (treeDocument (some t)) =
          (Tree.ofJson (g.setEnabledBy enabled) t.toJson).map some := by
        cases t <;> rfl
      rw [hroot, hread]
      rfl
  refine ⟨hdocument, ?_⟩
  rw [treeOfJson, treeJson, Json.read_write (distinct_treeDocument t)]
  exact hdocument

/-- The mean, a variable whose name needs escapes, and constants. -/
def Grammar.short : Grammar where
  name := "Short"
  entries := [{ symbol := .ofPrimitive "Mean" .mean "Mean of the children" },
    { symbol := .forVariable "\"\x01😀" },
    { symbol := .forConstant "Constant" defaultRange }]
  distinct := by decide

/-- The mean of no number at all, the zero with a sign, a variable and an infinity. -/
def Tree.odd : Tree :=
  .node (.ofPrimitive "Mean" .mean "Mean of the children")
    [.constant (.forConstant "Constant" defaultRange) Number.notANumber,
      .constant (.forConstant "Constant" defaultRange) (-0.0),
      .variable (.forVariable "\"\x01😀"),
      .constant (.forConstant "Constant" defaultRange) (-Number.infinity)]

/-- The odd tree comes back while none of its symbols is enabled. -/
theorem odd_tree_of_document : (∀ u ∈ some Tree.odd, u.Made) ∧
    (∀ u ∈ some Tree.odd, u.check = .ok ()) ∧
    (∀ u ∈ some Tree.odd, ∀ v ∈ u.preorder, v.symbol ∈ Grammar.short.symbols) ∧
    treeOfDocument (Grammar.short.setEnabledBy fun _ => false) (treeDocument (some .odd)) =
      .ok (some .odd) ∧
    treeOfJson (Grammar.short.setEnabledBy fun _ => false) (treeJson (some .odd)) =
      .ok (some .odd) := by
  have hmade : ∀ u ∈ some Tree.odd, u.Made := by
    rintro _ ⟨⟩
    simp only [Tree.Made, Tree.odd, Tree.preorder, Tree.preorderAll, List.mem_append,
      List.mem_cons, List.not_mem_nil, or_false]
    rintro u (rfl | rfl | rfl | rfl | rfl)
    · exact ⟨rfl, rfl⟩
    all_goals rfl
  have hcheck : ∀ u ∈ some Tree.odd, u.check = .ok () := by
    rintro _ ⟨⟩
    rfl
  have hsymbols : ∀ u ∈ some Tree.odd, ∀ v ∈ u.preorder, v.symbol ∈ Grammar.short.symbols := by
    rintro _ ⟨⟩
    simp only [Tree.odd, Tree.preorder, Tree.preorderAll, List.mem_append,
      List.mem_cons, List.not_mem_nil, or_false]
    rintro u (rfl | rfl | rfl | rfl | rfl)
    all_goals simp [Tree.symbol, Grammar.short, Grammar.symbols]
  exact ⟨hmade, hcheck, hsymbols, tree_of_document hmade hcheck hsymbols _⟩

end FormulaEvolution
