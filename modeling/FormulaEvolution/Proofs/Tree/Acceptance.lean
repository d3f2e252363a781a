/-
# Which data are trees

Data are read as a tree exactly if they are acceptable (`Tree.read_iff_accepted`): every node names a
symbol of the grammar, has as many subtrees as the symbol takes, and has a value that is a number where
the symbol is one of constants.  What is read is what the data show (`Tree.Depicts`), and all its nodes
are such as the reader takes (`Tree.legible_of_read`).

The number of subtrees is looked at in two places.  While subtrees are added one too many is refused,
and at the end all of them are counted.  The first look refuses nothing that the second one would not
(`Tree.readList_ok_iff`), so reading a node is told in one step (`Tree.read_ok_iff`), and the rest is an
induction over the data on the one side and over the tree on the other.
-/
import FormulaEvolution.Proofs.Tree.Document
import FormulaEvolution.Proofs.Tree.Grafting

namespace FormulaEvolution

/-- A symbol that is found by a name is one of the grammar. -/
theorem Grammar.mem_symbols_of_symbol? {g : Grammar} {name : String} {s : Symbol}
    (h : g.symbol? name = some s) : s ∈ g.symbols := by
  obtain ⟨e, he, rfl⟩ := Option.map_eq_some_iff.mp h
  exact List.mem_map_of_mem (List.mem_of_find?_eq_some he)

namespace Tree

/-! ## 1. Acceptable data -/

/-- The subtrees that the fields of a node list.  None are listed by fields without subtrees, nor by an
empty text or object in their place. -/
def listed (fields : List (String × Json)) : Option (List Json) :=
  match Dictionary.value? fields "subtrees" with
  | none => some []
  | some (.list items) => some items
  | some (.string text) => if text = "" then some [] else none
  | some (.object []) => some []
  | some _ => none

/-- Data that show a tree: every node is an object with the name of a symbol, as many subtrees as the
symbol takes, and a number for its value if the symbol is one of constants. -/
inductive Accepted (g : Grammar) : Json → Prop
  | node {fields : List (String × Json)} {name : String} {s : Symbol} {items : List Json}
    (named : Dictionary.value? fields "symbol" = some (.string name))
    (known : g.symbol? name = some s)
    (valued : s.isConstant = true →
      ∃ value x, Dictionary.value? fields "value" = some value ∧ value.toFloat = .ok x)
    (lists : listed fields = some items)
    (accepts : s.accepts items.length = true)
    (below : ∀ item ∈ items, Accepted g item) : Accepted g (.object fields)

/-- A tree is what data show: node by node the named symbol, a node of the sort that the symbol asks
for, the given value of a constant, and the subtrees in the order in which they are listed. -/
inductive Depicts (g : Grammar) : Json → Tree → Prop
  | node {fields : List (String × Json)} {name : String} {items : List Json} {t : Tree}
    (named : Dictionary.value? fields "symbol" = some (.string name))
    (known : g.symbol? name = some t.symbol)
    (sorted : t.Sorted)
    (valued : ∀ s x, t = .constant s x →
      ∃ value, Dictionary.value? fields "value" = some value ∧ value.toFloat = .ok x)
    (lists : listed fields = some items)
    (below : List.Forall₂ (Depicts g) items t.children) : Depicts g (.object fields) t

/-! ## 2. One node -/

section Nodes

variable {g : Grammar} {s : Symbol} {fields : List (String × Json)} {cs : List Tree} {t : Tree}

theorem readSymbol_ok_iff : readSymbol g fields = .ok s ↔
    ∃ name, Dictionary.value? fields "symbol" = some (.string name) ∧ g.symbol? name = some s := by
  unfold readSymbol
  split
  case h_4 name hname =>
    rw [hname]
    cases hs : g.symbol? name with
    | none => simp [hs]
    | some s' => simp [hs]
  all_goals simp_all

theorem readConstant_ok_iff {x : Float} : readConstant fields = .ok x ↔
    ∃ value, Dictionary.value? fields "value" = some value ∧ value.toFloat = .ok x := by
  unfold readConstant
  split
  · next hnone => simp [hnone]
  · next value hvalue => simp [hvalue]

theorem roomFor_ok_iff {count : Nat} : roomFor s count = .ok () ↔ count + 1 ≤ s.most := by
  rw [roomFor]
  split <;> simp <;> omega

/-- Subtrees are read one by one, and there has to be room for each of them. -/
theorem readList_ok_iff {items : List Json} {count : Nat} :
    readList true g s count items = .ok cs ↔ (items = [] ∨ count + items.length ≤ s.most) ∧
      List.Forall₂ (fun item c => read true g item = .ok c) items cs := by
  induction items generalizing count cs with
  | nil =>
    rw [readList, List.forall₂_nil_left_iff, Except.ok.injEq]
    simp [eq_comm]
  | cons item items ih =>
    rw [readList, List.forall₂_cons_left_iff, List.length_cons]
    constructor
    · intro h
      obtain ⟨c, hc, h⟩ := Except.bind_ok h
      obtain ⟨_, hroom, h⟩ := Except.bind_ok h
      obtain ⟨ds, hds, h⟩ := Except.bind_ok h
      obtain rfl := Except.ok.inj h
      have hroom := roomFor_ok_iff.mp hroom
      obtain ⟨hcount, hds⟩ := ih.mp hds
      refine ⟨.inr ?_, c, ds, hc, hds, rfl⟩
      rcases hcount with rfl | hcount
      · exact hroom
      · omega
    · rintro ⟨hcount, c, ds, hc, hds, rfl⟩
      have hcount : count + (items.length + 1) ≤ s.most := hcount.resolve_left (List.cons_ne_nil _ _)
      have hroom : roomFor s count = .ok () := roomFor_ok_iff.mpr (by omega)
      have hrest : readList true g s (count + 1) items = .ok ds := ih.mpr ⟨.inr (by omega), hds⟩
      rw [hc, hroom, hrest]
      rfl

/-- The subtrees that are read are those that are listed. -/
theorem readSubtrees_ok_iff : readSubtrees true g s fields = .ok cs ↔
    ∃ items, listed fields = some items ∧ readList true g s 0 items = .ok cs := by
  induction fields with
  | nil => simp [readSubtrees, listed, Dictionary.value?, readList]
  | cons field fields ih =>
    obtain ⟨name, value⟩ := field
    rw [readSubtrees]
    by_cases hname : name = "subtrees"
    · have hvalue : Dictionary.value? ((name, value) :: fields) "subtrees" = some value := by
        simp [Dictionary.value?, hname]
      rw [if_pos hname, listed, hvalue]
      unfold readItems
      split
      · simp
      · next text => by_cases htext : text = "" <;> simp [htext, readList]
      · simp [readList]
      · simp
    · have hvalue : Dictionary.value? ((name, value) :: fields) "subtrees" =
          Dictionary.value? fields "subtrees" := by
        simp [Dictionary.value?, hname]
      have hlisted : listed ((name, value) :: fields) = listed fields := by
        unfold listed
        rw [hvalue]
      rw [if_neg hname, ih, hlisted]

theorem assemble_ok_iff {value : Float} : assemble true s value cs = .ok t ↔
    s.accepts cs.length = true ∧ t = if cs.isEmpty then bare s value else .node s cs := by
  rw [assemble, Bool.not_true, Bool.or_false]
  split
  · next h => rw [Except.ok.injEq, eq_comm, and_iff_right h]
  · next h => simp [h]

/-- Nodes of the sorts that their symbols ask for are told apart by symbols, children and values. -/
theorem Sorted.eq {u : Tree} (ht : t.Sorted) (hu : u.Sorted) (hsymbol : t.symbol = u.symbol)
    (hchildren : t.children = u.children)
    (hvalue : ∀ s s' x y, t = .constant s x → u = .constant s' y → x = y) : t = u := by
  have hkind : t.kind? = u.kind? := by
    rw [← (sorted_iff t).mp ht, ← (sorted_iff u).mp hu, hsymbol]
  cases t with
  | constant s x =>
    cases u with
    | constant s' y => exact congr (congrArg Tree.constant hsymbol) (hvalue s s' x y rfl rfl)
    | «variable» s' => cases hkind
    | node s' cs' => cases hkind
  | «variable» s =>
    cases u with
    | constant s' y => cases hkind
    | «variable» s' => exact congrArg Tree.variable hsymbol
    | node s' cs' => cases hkind
  | node s cs =>
    cases u with
    | constant s' y => cases hkind
    | «variable» s' => cases hkind
    | node s' cs' => exact congr (congrArg Tree.node hsymbol) hchildren

/-- The node that is put together has the symbol, is of the sort that it asks for and has the children;
a constant has the value. -/
theorem assembled {value : Float} (haccepts : s.accepts cs.length = true)
    (ht : t = if cs.isEmpty then bare s value else .node s cs) :
    t.symbol = s ∧ t.Sorted ∧ t.children = cs ∧ ∀ s' x, t = .constant s' x → x = value := by
  have hmost : cs.length ≤ s.most := (Symbol.accepts_iff.mp haccepts).2
  cases hkind : s.kind with
  | none =>
    obtain rfl : t = .node s cs := by
      cases cs <;> simpa [bare, Symbol.isConstant, Symbol.isVariable, hkind] using ht
    exact ⟨rfl, (sorted_iff _).mpr hkind, rfl, fun _ _ h => by cases h⟩
  | some kind =>
    have hnone := s.most_of_kind (Option.isSome_iff_exists.mpr ⟨kind, hkind⟩)
    obtain rfl : cs = [] := List.eq_nil_of_length_eq_zero (by omega)
    cases kind with
    | constant =>
      obtain rfl : t = .constant s value := by simpa [bare, Symbol.isConstant, hkind] using ht
      exact ⟨rfl, (sorted_iff _).mpr hkind, rfl, fun _ _ h => by cases h; rfl⟩
    | «variable» =>
      obtain rfl : t = .variable s := by
        simpa [bare, Symbol.isConstant, Symbol.isVariable, hkind] using ht
      exact ⟨rfl, (sorted_iff _).mpr hkind, rfl, fun _ _ h => by cases h⟩

/-- There is only one such node. -/
theorem assembled_iff {value : Float} (haccepts : s.accepts cs.length = true) :
    (t = if cs.isEmpty then bare s value else .node s cs) ↔
      t.symbol = s ∧ t.Sorted ∧ t.children = cs ∧ ∀ s' x, t = .constant s' x → x = value := by
  refine ⟨assembled haccepts, ?_⟩
  rintro ⟨hsymbol, hsorted, hchildren, hvalue⟩
  obtain ⟨u, hu⟩ : ∃ u, u = if cs.isEmpty then bare s value else .node s cs := ⟨_, rfl⟩
  obtain ⟨hsymbol', hsorted', hchildren', hvalue'⟩ := assembled haccepts hu
  rw [← hu]
  exact hsorted.eq hsorted' (hsymbol.trans hsymbol'.symm) (hchildren.trans hchildren'.symm)
    fun s s' x y hx hy => (hvalue s x hx).trans (hvalue' s' y hy).symm

/-- What has been read on the way to a node. -/
theorem parts_of_read (h : read true g (.object fields) = .ok t) : ∃ s value cs,
    readSymbol g fields = .ok s ∧ (s.isConstant = true → readConstant fields = .ok value) ∧
      readSubtrees true g s fields = .ok cs ∧ assemble true s value cs = .ok t := by
  rw [read] at h
  obtain ⟨s, hsymbol, h⟩ := Except.bind_ok h
  simp only at h
  split at h
  · obtain ⟨value, hvalue, h⟩ := Except.bind_ok h
    obtain ⟨cs, hcs, h⟩ := Except.bind_ok h
    exact ⟨s, value, cs, hsymbol, fun _ => hvalue, hcs, h⟩
  · next hconstant =>
    obtain ⟨value, -, h⟩ := Except.bind_ok h
    obtain ⟨cs, hcs, h⟩ := Except.bind_ok h
    exact ⟨s, value, cs, hsymbol, fun hs => absurd hs hconstant, hcs, h⟩

/-- The value of a constant is read; another node gets one that it does not use. -/
theorem Sorted.value_read (hsorted : t.Sorted)
    (hvalue : ∀ s x, t = .constant s x → readConstant fields = .ok x) :
    ∃ value, (if t.symbol.isConstant then readConstant fields else .ok 0.0) = .ok value ∧
      ∀ s x, t = .constant s x → x = value := by
  cases t with
  | constant s x =>
    refine ⟨x, ?_, fun _ _ h => by cases h; rfl⟩
    rw [symbol, if_pos (show s.isConstant = true from hsorted)]
    exact hvalue s x rfl
  | «variable» s =>
    refine ⟨0.0, if_neg ?_, fun _ _ h => by cases h⟩
    have hkind : s.kind = some .variable := (sorted_iff _).mp hsorted
    simp [symbol, Symbol.isConstant, hkind]
  | node s cs =>
    refine ⟨0.0, if_neg ?_, fun _ _ h => by cases h⟩
    have hkind : s.kind = none := (sorted_iff _).mp hsorted
    simp [symbol, Symbol.isConstant, hkind]

/-- **What it takes to read a node**, given what its subtrees are read as. -/
theorem read_ok_iff : read true g (.object fields) = .ok t ↔ ∃ name items,
    Dictionary.value? fields "symbol" = some (.string name) ∧ g.symbol? name = some t.symbol ∧
    t.Sorted ∧ (∀ s x, t = .constant s x →
      ∃ value, Dictionary.value? fields "value" = some value ∧ value.toFloat = .ok x) ∧
    listed fields = some items ∧ t.symbol.accepts items.length = true ∧
    List.Forall₂ (fun item c => read true g item = .ok c) items t.children := by
  constructor
  · intro h
    obtain ⟨s, value, cs, hsymbol, hvalue, hcs, h⟩ := parts_of_read h
    obtain ⟨name, hname, hknown⟩ := readSymbol_ok_iff.mp hsymbol
    obtain ⟨items, hitems, hlist⟩ := readSubtrees_ok_iff.mp hcs
    obtain ⟨-, hbelow⟩ := readList_ok_iff.mp hlist
    obtain ⟨haccepts, ht⟩ := assemble_ok_iff.mp h
    obtain ⟨rfl, hsorted, rfl, hfloat⟩ := (assembled_iff haccepts).mp ht
    refine ⟨name, items, hname, hknown, hsorted, ?_, hitems, ?_, hbelow⟩
    · rintro s x rfl
      rw [hfloat s x rfl]
      exact readConstant_ok_iff.mp (hvalue hsorted)
    · rw [hbelow.length_eq]
      exact haccepts
  · rintro ⟨name, items, hname, hknown, hsorted, hvalue, hitems, haccepts, hbelow⟩
    have haccepts' : t.symbol.accepts t.children.length = true := by rwa [← hbelow.length_eq]
    have hmost : items.length ≤ t.symbol.most := (Symbol.accepts_iff.mp haccepts).2
    have hcs : readSubtrees true g t.symbol fields = .ok t.children :=
      readSubtrees_ok_iff.mpr ⟨items, hitems, readList_ok_iff.mpr ⟨.inr (by omega), hbelow⟩⟩
    obtain ⟨value, hread, hfloat⟩ := hsorted.value_read fun s x ht =>
      readConstant_ok_iff.mpr (hvalue s x ht)
    rw [read_object (readSymbol_ok_iff.mpr ⟨name, hname, hknown⟩) hread hcs]
    exact assemble_ok_iff.mpr ⟨haccepts', (assembled_iff haccepts').mpr ⟨rfl, hsorted, rfl, hfloat⟩⟩

end Nodes

/-! ## 3. Whole trees -/

/-- The tree itself comes before the subtrees of its children. -/
theorem preorder_eq (t : Tree) : t.preorder = t :: preorderAll t.children := by
  cases t <;> rfl

theorem mem_preorder_iff {t u : Tree} :
    u ∈ t.preorder ↔ u = t ∨ ∃ c ∈ t.children, u ∈ c.preorder := by
  rw [preorder_eq, List.mem_cons, mem_preorderAll]

section Trees

variable {g : Grammar} {data : Json} {t : Tree}

/-- Only objects are read. -/
theorem object_of_read (h : read true g data = .ok t) : ∃ fields, data = .object fields := by
  cases data with
  | object fields => exact ⟨fields, rfl⟩
  | _ => cases h

/-- **What is read is what the data show.** -/
theorem depicts_of_read {t : Tree} {data : Json} (h : read true g data = .ok t) :
    Depicts g data t := by
  obtain ⟨fields, rfl⟩ := object_of_read h
  obtain ⟨name, items, hname, hknown, hsorted, hvalue, hitems, -, hbelow⟩ := read_ok_iff.mp h
  refine .node hname hknown hsorted hvalue hitems (forall₂_imp_of_mem hbelow fun item c _ hc hread => ?_)
  have hsmaller := sizeOf_lt_of_mem_children hc
  exact depicts_of_read hread
termination_by sizeOf t

/-- Only acceptable data are read. -/
theorem accepted_of_read {t : Tree} {data : Json} (h : read true g data = .ok t) :
    Accepted g data := by
  obtain ⟨fields, rfl⟩ := object_of_read h
  obtain ⟨name, items, hname, hknown, hsorted, hvalue, hitems, haccepts, hbelow⟩ := read_ok_iff.mp h
  refine .node hname hknown (fun hconstant => ?_) hitems haccepts fun item hitem => ?_
  · have hkind : t.kind? = some .constant := by
      rw [← (sorted_iff t).mp hsorted]
      simpa [Symbol.isConstant] using hconstant
    cases t with
    | constant s x =>
      obtain ⟨value, hvalue, hx⟩ := hvalue s x rfl
      exact ⟨value, x, hvalue, hx⟩
    | «variable» s => cases hkind
    | node s cs => cases hkind
  · obtain ⟨c, hc, hread⟩ := exists_of_forall₂ (List.Forall₂.flip hbelow) hitem
    have hsmaller := sizeOf_lt_of_mem_children hc
    exact accepted_of_read hread
termination_by sizeOf t

/-- Every node of what is read is legible to the reader. -/
theorem legible_of_read {t : Tree} {data : Json} (h : read true g data = .ok t) :
    ∀ u ∈ t.preorder, u.Legible g := by
  obtain ⟨fields, rfl⟩ := object_of_read h
  obtain ⟨name, items, -, hknown, hsorted, -, -, haccepts, hbelow⟩ := read_ok_iff.mp h
  rw [hbelow.length_eq] at haccepts
  intro u hu
  rw [mem_preorder_iff] at hu
  rcases hu with rfl | ⟨c, hc, hu⟩
  · exact ⟨hsorted, haccepts, Grammar.mem_symbols_of_symbol? hknown⟩
  · obtain ⟨item, -, hread⟩ := exists_of_forall₂ hbelow hc
    have hsmaller := sizeOf_lt_of_mem_children hc
    exact legible_of_read hread u hu
termination_by sizeOf t

theorem fits_of_read (h : read true g data = .ok t) : t.Fits := fun u hu =>
  (legible_of_read h u hu).accepts

theorem made_of_read (h : read true g data = .ok t) : t.Made := fun u hu =>
  (legible_of_read h u hu).sorted

/-- Acceptable data are read. -/
theorem read_of_accepted (h : Accepted g data) : ∃ t, read true g data = .ok t := by
  induction h with
  | @node fields name s items hname hknown hvalue hitems haccepts _ ih =>
    obtain ⟨cs, hcs⟩ : ∃ cs, List.Forall₂ (fun item c => read true g item = .ok c) items cs := by
      obtain ⟨cs, hcs, -⟩ := Except.mapM_ok ih
      exact ⟨cs, mapM_ok_iff.mp hcs⟩
    rw [hcs.length_eq] at haccepts
    obtain ⟨x, hx⟩ : ∃ x, s.isConstant = true →
        ∃ value, Dictionary.value? fields "value" = some value ∧ value.toFloat = .ok x := by
      by_cases hconstant : s.isConstant = true
      · obtain ⟨value, x, hvalue⟩ := hvalue hconstant
        exact ⟨x, fun _ => ⟨value, hvalue⟩⟩
      · exact ⟨0.0, fun h => absurd h hconstant⟩
    obtain ⟨t, ht⟩ : ∃ t, t = if cs.isEmpty then bare s x else .node s cs := ⟨_, rfl⟩
    obtain ⟨rfl, hsorted, rfl, hfloat⟩ := (assembled_iff haccepts).mp ht
    refine ⟨t, read_ok_iff.mpr ⟨name, items, hname, hknown, hsorted, ?_, hitems, ?_, hcs⟩⟩
    · rintro s x' rfl
      rw [hfloat s x' rfl]
      exact hx hsorted
    · rwa [hcs.length_eq]

/-- **Data are read as a tree exactly if they are acceptable.** -/
theorem read_iff_accepted : (∃ t, read true g data = .ok t) ↔ Accepted g data :=
  ⟨fun ⟨_, h⟩ => accepted_of_read h, read_of_accepted⟩

end Trees

end Tree
end FormulaEvolution
