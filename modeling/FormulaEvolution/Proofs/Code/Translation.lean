/-
# Compiling keeps the value

Running what a tree is compiled to gives what evaluating the tree under the keys of its variables
gives, whatever the variables are bound to: the same value, or the same failure, except that a name
that is not bound is a key that is looked up in vain (`SameOutcome`).  Without braces in the names it is
the tree itself (`compile_runsAs`).

`Translates t nodes ..` is what an induction over a tree carries: the text of `t`, written when
`nodes` are called already, is a phrase, and its expression runs as `t` under its keys does among any
nodes that begin with those.  There is a lemma for each way to write a node: as a call of a node
(`TranslatesAll.called`), as a call of a primitive, or with a sign between two children.

An expression then explains the tree (`Expression.RunsAs.outcome`): a key that is looked up in vain
is told as a variable that is not bound.
-/
import FormulaEvolution.Proofs.Code.Constants
import FormulaEvolution.Proofs.Code.Keys
import FormulaEvolution.Proofs.Sequence
import FormulaEvolution.Proofs.Symbol.Usual

namespace FormulaEvolution

namespace Tree

/-! ## 1. One equation for all nodes -/

/-- A tree has the value that its root gives to those of its children. -/
theorem value_eq (b : Bindings) (t : Tree) : t.value b = values b t.children >>= combine b t := by
  cases t <;> rw [value] <;> rfl

theorem length_values {b : Bindings} : ∀ {cs : List Tree} {vs : List Value},
    values b cs = .ok vs → vs.length = cs.length
  | [], vs, h => by
    cases h
    rfl
  | c :: cs, vs, h => by
    rw [values] at h
    obtain ⟨v, _, h⟩ := Except.bind_ok h
    obtain ⟨ws, hws, h⟩ := Except.bind_ok h
    cases h
    rw [List.length_cons, List.length_cons, length_values hws]

/-- A variable has the value that is bound to its name. -/
theorem value_bound {b : Bindings} {s : Symbol} {v : Value} (h : b.value? s.name = some v) :
    (Tree.variable s).value b = .ok v := by
  have hvalue : (Tree.variable s).value b = nodeValue b (.variable s) [] := rfl
  rw [hvalue, nodeValue, h]

theorem value_unbound {b : Bindings} {s : Symbol} (h : b.value? s.name = none) :
    (Tree.variable s).value b = .error (.evaluation (.unboundVariable s.name)) := by
  have hvalue : (Tree.variable s).value b = nodeValue b (.variable s) [] := rfl
  rw [hvalue, nodeValue, h]

/-- A tree that is no finite constant is written over the texts of its children. -/
theorem emit_eq {t : Tree} (h : ∀ s v, t = .constant s v → Number.isFinite v = false)
    (nodes : List Tree) :
    t.emit nodes = emitAll t.children nodes >>= fun p => emitNode t p.1 p.2 := by
  match t with
  | .constant s v =>
    rw [emit, h s v rfl]
    rfl
  | .variable s =>
    rw [emit]
    rfl
  | .node s cs =>
    rw [emit]
    rfl

/-- A variable is written by its template, and calls no node. -/
theorem emit_variable (name : String) (nodes : List Tree) :
    emit (.variable (.forVariable name)) nodes =
      ((Symbol.forVariable name).emit []).map fun text => (text, nodes) := by
  rw [emit]
  rfl

/-! ## 2. Translations -/

/-- What is written for a tree, when some nodes are called already, is a phrase that calls further
nodes and runs as the tree under its keys does. -/
structure Translates (t : Tree) (nodes : List Tree) (text : List Char) (new : List Tree)
    (tokens : List Token) (code : Code) : Prop where
  written : t.emit nodes = .ok (text, nodes ++ new)
  phrase : Phrase text tokens code
  runs : ∀ after b, SameOutcome
    (code.run (Expression.callNode (nodes ++ new ++ after) b) b) (t.keyed.value b)

/-- The same for several trees. -/
structure TranslatesAll (cs : List Tree) (nodes : List Tree) (texts : List (List Char))
    (new : List Tree) (tokens : List Token) (codes : List Code) : Prop where
  written : emitAll cs nodes = .ok (texts, nodes ++ new)
  phrases : Phrases texts tokens codes
  count : codes.length = cs.length
  runs : ∀ after b, SameOutcome
    (Code.runAll (Expression.callNode (nodes ++ new ++ after) b) b codes) (values b (keyedAll cs))

theorem TranslatesAll.nil (nodes : List Tree) : TranslatesAll [] nodes [] [] [] [] where
  written := by rw [emitAll, List.append_nil]
  phrases := .nil
  count := rfl
  runs := by
    intro after b
    rw [Code.runAll_nil, keyedAll, values]
    exact .same _

theorem TranslatesAll.cons {c : Tree} {cs nodes new new' : List Tree} {text : List Char}
    {texts : List (List Char)} {tokens tokens' : List Token} {code : Code} {codes : List Code}
    (h : Translates c nodes text new tokens code)
    (hrest : TranslatesAll cs (nodes ++ new) texts new' tokens' codes) :
    ∃ tokens'', TranslatesAll (c :: cs) nodes (text :: texts) (new ++ new') tokens'' (code :: codes) := by
  have hwritten : emitAll (c :: cs) nodes = .ok (text :: texts, nodes ++ (new ++ new')) := by
    rw [emitAll, h.written, ← List.append_assoc]
    simp only [bind, Except.bind, hrest.written]
    rfl
  have hruns : ∀ after b, SameOutcome
      (Code.runAll (Expression.callNode (nodes ++ (new ++ new') ++ after) b) b (code :: codes))
      (values b (keyedAll (c :: cs))) := by
    intro after b
    rw [Code.runAll, keyedAll, values]
    refine SameOutcome.bind ?_ fun v _ => SameOutcome.bind ?_ fun vs _ => .same _
    · have := h.runs (new' ++ after) b
      rwa [← List.append_assoc, List.append_assoc nodes] at this
    · have := hrest.runs after b
      rwa [List.append_assoc nodes] at this
  obtain ⟨tokens'', hphrases⟩ := Phrases.push h.phrase hrest.phrases
  exact ⟨tokens'', hwritten, hphrases, by simp [hrest.count], hruns⟩

/-! ## 3. The root -/

section Root

variable {cs nodes new : List Tree} {texts : List (List Char)} {tokens : List Token}
  {codes : List Code}

theorem length_keyed_values {b : Bindings} {vs : List Value} (h : values b (keyedAll cs) = .ok vs) :
    vs.length = cs.length := (length_values h).trans (length_keyedAll cs)

/-- A leaf that is not compilable is evaluated as it is called. -/
theorem combine_eq_byRow {b : Bindings} {t : Tree} {vs : List Value}
    (hnot : t.symbol.isCompilable = false) (hcount : vs.length = t.children.length) :
    combine b t vs = nodeValueByRow b t vs := by
  cases hleaf : t.isLeaf with
  | false => simp [combine, isWhole, hleaf, hnot]
  | true =>
    have hchildren : t.children = [] := List.isEmpty_iff.mp hleaf
    obtain rfl : vs = [] := List.length_eq_zero_iff.mp (by rw [hcount, hchildren]; rfl)
    simp only [combine, isWhole, hleaf, Bool.true_or, if_true]
    rfl

/-- **A node without a template is called by its index**, and so is a constant that is not finite. -/
theorem TranslatesAll.called {t : Tree}
    (hconstant : ∀ s v, t = .constant s v → Number.isFinite v = false)
    (hvariable : ∀ s, t ≠ .variable s) (hnot : t.symbol.isCompilable = false)
    (h : TranslatesAll t.children nodes texts new tokens codes) :
    ∃ tokens', Translates t nodes (nodeCallText (nodes ++ new).length texts) (new ++ [t]) tokens'
      (.node (nodes ++ new).length codes) := by
  refine ⟨_, ?_, phrase_node (nodes ++ new).length h.phrases, ?_⟩
  · rw [emit_eq hconstant, h.written]
    simp [bind, Except.bind, emitNode, hnot]
  · intro after b
    have hindex : (nodes ++ (new ++ [t]) ++ after)[(nodes ++ new).length]? = some t := by
      rw [← List.append_assoc, List.append_assoc _ [t]]
      simp
    rw [Code.run, value_eq, children_keyed]
    refine SameOutcome.bind ?_ fun vs hvs => ?_
    · have := h.runs (t :: after) b
      rwa [List.append_cons, List.append_assoc nodes] at this
    · rw [combine_keyed hvariable, combine_eq_byRow hnot (length_keyed_values hvs),
        Expression.callNode, hindex]
      exact .same _

/-- **A node of a primitive is a call of the primitive.** -/
theorem TranslatesAll.primitive {s : Symbol} {p : Primitive} (hp : s.OfPrimitive p)
    (haccepts : s.accepts cs.length = true) (h : TranslatesAll cs nodes texts new tokens codes) :
    ∃ tokens', Translates (.node s cs) nodes (Symbol.callText p.shortName texts) new tokens'
      (.call p.shortName codes) := by
  obtain ⟨hname, hne⟩ := Primitive.isNameText_shortName p
  have hcompilable : s.isCompilable = true := by simp [Symbol.isCompilable, hp.2.1]
  refine ⟨_, ?_, phrase_call hname hne h.phrases, ?_⟩
  · rw [emit, h.written]
    simp [bind, Except.bind, emitNode, symbol, hcompilable, Symbol.emit, hp.2.1, Except.map]
  · intro after b
    rw [Code.run, Primitive.ofShortName?_shortName, keyed, value_eq]
    refine SameOutcome.bind (h.runs after b) fun vs hvs => ?_
    have htakes : p.kernel.Takes vs.length := by
      rw [length_keyed_values hvs]
      exact hp.takes haccepts
    have hcombine : combine b (.node s (keyedAll cs)) vs = p.run vs := by
      simp only [combine, isWhole, symbol, hcompilable, Bool.or_true, if_true, nodeValue,
        Symbol.isFunctional, hp.1, Option.isSome_some, Symbol.evaluate, Primitive.run,
        Kernel.runOnChildren_eq htakes]
    rw [hcombine]
    exact .same _

theorem run_signed (call : Nat → List Value → Except Failure Value) (b : Bindings) (a : Arithmetic)
    (x y : Code) :
    Code.run call b (.signed a.sign x y) = Code.runAll call b [x, y] >>= a.kernel.run := by
  rw [Code.run, Code.runAll, Code.runAll, Code.runAll_nil, a.kernel_eq]
  cases Code.run call b x with
  | error failure => rfl
  | ok v =>
    cases Code.run call b y with
    | error failure => rfl
    | ok w => rfl

/-- **A node of an operation of arithmetic is a sign between two expressions.** -/
theorem TranslatesAll.arithmetic {s : Symbol} {a : Arithmetic} (ha : s.OfArithmetic a)
    (haccepts : s.accepts cs.length = true) (h : TranslatesAll cs nodes texts new tokens codes) :
    ∃ text tokens' code, Translates (.node s cs) nodes text new tokens' code := by
  have hop : s.operation = some a.kernel.runOnChildren := ha.1
  have hcompilable : s.isCompilable = true := ha.isCompilable
  obtain ⟨hcount, htakes⟩ := ha.takes haccepts
  obtain ⟨x, y, rfl⟩ : ∃ x y, codes = [x, y] := by
    match codes, h.count.trans hcount with
    | [x, y], _ => exact ⟨x, y, rfl⟩
  obtain ⟨text, text', front, back, rfl, hx, hy⟩ := h.phrases.pair
  refine ⟨_, _, _, ?_, phrase_sign a.sign_mark hx hy, ?_⟩
  · have hemit := ha.emit_iff.mpr ⟨text, text', [], rfl, rfl⟩
    rw [emit, h.written]
    simp [bind, Except.bind, emitNode, symbol, hcompilable, hemit, Except.map]
  · intro after b
    rw [run_signed, keyed, value_eq]
    refine SameOutcome.bind (h.runs after b) fun vs hvs => ?_
    have htakes' : a.kernel.Takes vs.length := by rwa [length_keyed_values hvs]
    have hcombine : combine b (.node s (keyedAll cs)) vs = a.kernel.run vs := by
      simp only [combine, isWhole, symbol, hcompilable, Bool.or_true, if_true, nodeValue,
        Symbol.isFunctional, hop, Option.isSome_some, Symbol.evaluate,
        Kernel.runOnChildren_eq htakes']
    rw [hcombine]
    exact .same _

/-- **A variable is looked up by the key of its name.** -/
theorem translates_input {name key : String} (hkey : Symbol.key? name = some key)
    (nodes : List Tree) : ∃ text tokens code,
      Translates (.variable (Symbol.forVariable name)) nodes text [] tokens code := by
  refine ⟨_, _, _, ?_, phrase_input key, ?_⟩
  · have hemit := Symbol.emit_forVariable_iff.mpr ⟨key, hkey, rfl⟩
    rw [emit_variable, hemit, List.append_nil]
    rfl
  · intro after b
    have hkeyed : keyed (.variable (Symbol.forVariable name)) =
        .variable (Symbol.forVariable key) := by
      have hname : Symbol.key? (Symbol.forVariable name).name = some key := hkey
      rw [keyed, hname, Option.getD_some]
    rw [Code.run, hkeyed]
    cases hlookup : b.value? key with
    | none =>
      rw [value_unbound (s := Symbol.forVariable key) hlookup]
      exact .missing key
    | some v =>
      rw [value_bound (s := Symbol.forVariable key) hlookup]
      exact .same _

/-- **A finite constant is written as a number.** -/
theorem translates_constant (s : Symbol) {value : Float} (hfinite : Number.isFinite value = true)
    (nodes : List Tree) :
    ∃ text tokens code, Translates (.constant s value) nodes text [] tokens code := by
  obtain ⟨tokens, code, hphrase, -, hrun⟩ := phrase_constant hfinite
  refine ⟨_, tokens, code, ?_, hphrase, ?_⟩
  · rw [emit, if_pos hfinite, List.append_nil]
  · intro after b
    rw [hrun]
    exact .same _

end Root

/-! ## 4. Trees -/

/-- What the compiler relies on at a node: the node is of the sort that its symbol asks for, has a
number of children that the symbol takes, and the symbol is a usual one. -/
structure Ready (Quality : Symbol → Prop) (u : Tree) : Prop where
  sorted : u.Sorted
  accepts : u.symbol.accepts u.children.length = true
  usual : u.symbol.Usual Quality

/-- The same for a node that may be a variable with braces in its name. -/
structure Regular (Quality : Symbol → Prop) (u : Tree) : Prop where
  sorted : u.Sorted
  accepts : u.symbol.accepts u.children.length = true
  common : u.symbol.Common Quality

section Trees

variable {Quality : Symbol → Prop}

theorem Ready.regular {u : Tree} (h : Ready Quality u) : Regular Quality u :=
  ⟨h.sorted, h.accepts, .inl h.usual⟩

/-- The symbol of a constant has no template. -/
theorem Regular.not_compilable {s : Symbol} {v : Float} (h : Regular Quality (.constant s v)) :
    s.isCompilable = false := by
  have hsorted : s.kind = some .constant := by simpa [Sorted, Symbol.isConstant] using h.sorted
  have hcommon : s.Common Quality := h.common
  rcases hcommon with husual | ⟨name, rfl⟩
  · cases husual with
    | standard hs => rw [(Symbol.standard_cases hs).1] at hsorted; cases hsorted
    | fixed name range => rfl
    | input name hname => cases hsorted
    | custom hkind _ hnot _ => exact hnot
  · cases hsorted

/-- The symbol of a variable is that of its name. -/
theorem Regular.variable_eq {s : Symbol} (h : Regular Quality (.variable s)) :
    s = .forVariable s.name := by
  have hsorted : s.kind = some .variable := by simpa [Sorted, Symbol.isVariable] using h.sorted
  have hcommon : s.Common Quality := h.common
  rcases hcommon with husual | ⟨name, rfl⟩
  · cases husual with
    | standard hs => rw [(Symbol.standard_cases hs).1] at hsorted; cases hsorted
    | fixed name range => cases hsorted
    | input name hname => rfl
    | custom hkind _ _ _ => rw [hkind] at hsorted; cases hsorted
  · rfl

/-- The name of a variable has no braces if its symbol is a usual one. -/
theorem Ready.variable_plain {s : Symbol} (h : Ready Quality (.variable s)) :
    Text.Quoted.Plain s.name.toList := by
  have hsorted : s.kind = some .variable := by simpa [Sorted, Symbol.isVariable] using h.sorted
  have husual : s.Usual Quality := h.usual
  cases husual with
  | standard hs => rw [(Symbol.standard_cases hs).1] at hsorted; cases hsorted
  | fixed name range => cases hsorted
  | input name hname => exact hname
  | custom hkind _ _ _ => rw [hkind] at hsorted; cases hsorted

/-- The symbol of any other node is a standard one or has no template. -/
theorem Regular.node_cases {s : Symbol} {cs : List Tree} (h : Regular Quality (.node s cs)) :
    s ∈ standardSymbols ∨ s.isFunctional = true ∧ s.isCompilable = false ∧ Quality s := by
  have hsorted : s.isConstant = false ∧ s.isVariable = false := h.sorted
  have hcommon : s.Common Quality := h.common
  rcases hcommon with husual | ⟨name, rfl⟩
  · cases husual with
    | standard hs => exact .inl hs
    | fixed name range => cases hsorted.1
    | input name hname => cases hsorted.2
    | custom _ hop hnot hquality => exact .inr ⟨hop, hnot, hquality⟩
  · cases hsorted.2

/-- Under keys, a node is what it was. -/
theorem Regular.keyed {u : Tree} (h : Regular Quality u) : Regular Quality u.keyed := by
  cases u with
  | constant s v => exact h
  | «variable» s => exact ⟨rfl, rfl, .inr ⟨_, rfl⟩⟩
  | node s cs =>
    refine ⟨h.sorted, ?_, h.common⟩
    rw [children_keyed, length_keyedAll]
    exact h.accepts

theorem regular_keyed {t : Tree} (h : ∀ u ∈ t.preorder, Regular Quality u) :
    ∀ u ∈ t.keyed.preorder, Regular Quality u := by
  intro u hu
  rw [preorder_keyed] at hu
  obtain ⟨v, hv, rfl⟩ := List.mem_map.mp hu
  exact (h v hv).keyed

mutual

/-- **Every tree whose variables have keys is translated**, whatever nodes are called already. -/
theorem exists_translates : ∀ (t : Tree) (nodes : List Tree),
    (∀ u ∈ t.preorder, Regular Quality u) → t.HasKeys →
      ∃ text new tokens code, Translates t nodes text new tokens code
  | .constant s v, nodes, h, _ => by
    have hregular := h (.constant s v) (by simp [preorder])
    cases hfinite : Number.isFinite v with
    | true =>
      obtain ⟨text, tokens, code, ht⟩ := translates_constant s hfinite nodes
      exact ⟨text, [], tokens, code, ht⟩
    | false =>
      obtain ⟨tokens, ht⟩ := TranslatesAll.called (t := .constant s v)
        (by rintro _ _ ⟨⟩; exact hfinite) nofun hregular.not_compilable (TranslatesAll.nil nodes)
      exact ⟨_, _, tokens, _, ht⟩
  | .variable s, nodes, h, hkeys => by
    obtain ⟨key, hkey⟩ := Option.isSome_iff_exists.mp (hkeys s (by simp [preorder]))
    rw [(h (.variable s) (by simp [preorder])).variable_eq]
    obtain ⟨text, tokens, code, ht⟩ := translates_input hkey nodes
    exact ⟨text, [], tokens, code, ht⟩
  | .node s cs, nodes, h, hkeys => by
    have hregular := h (.node s cs) (by simp [preorder])
    have haccepts : s.accepts cs.length = true := hregular.accepts
    have hbelow : ∀ u ∈ preorderAll cs, u ∈ (Tree.node s cs).preorder := fun u hu => by
      rw [preorder]
      exact List.mem_cons_of_mem _ hu
    obtain ⟨texts, new, tokens, codes, hall⟩ := exists_translatesAll cs nodes
      (fun u hu => h u (hbelow u hu)) fun s' hs' => hkeys s' (hbelow _ hs')
    rcases hregular.node_cases with hs | ⟨-, hnot, -⟩
    · rcases (Symbol.standard_cases hs).2 with ⟨p, hp⟩ | ⟨a, ha⟩
      · obtain ⟨tokens', ht⟩ := hall.primitive hp haccepts
        exact ⟨_, new, tokens', _, ht⟩
      · obtain ⟨text, tokens', code, ht⟩ := hall.arithmetic ha haccepts
        exact ⟨text, new, tokens', code, ht⟩
    · obtain ⟨tokens', ht⟩ :=
        TranslatesAll.called (t := .node s cs) (by rintro _ _ ⟨⟩) nofun hnot hall
      exact ⟨_, _, tokens', _, ht⟩

theorem exists_translatesAll : ∀ (cs nodes : List Tree),
    (∀ u ∈ preorderAll cs, Regular Quality u) →
      (∀ s, .variable s ∈ preorderAll cs → (Symbol.key? s.name).isSome = true) →
        ∃ texts new tokens codes, TranslatesAll cs nodes texts new tokens codes
  | [], nodes, _, _ => ⟨[], [], [], [], TranslatesAll.nil nodes⟩
  | c :: cs, nodes, h, hkeys => by
    simp only [preorderAll, List.mem_append] at h hkeys
    obtain ⟨text, new, tokens, code, hc⟩ :=
      exists_translates c nodes (fun u hu => h u (.inl hu)) fun s hs => hkeys s (.inl hs)
    obtain ⟨texts, new', tokens', codes, hcs⟩ := exists_translatesAll cs (nodes ++ new)
      (fun u hu => h u (.inr hu)) fun s hs => hkeys s (.inr hs)
    obtain ⟨tokens'', hall⟩ := TranslatesAll.cons hc hcs
    exact ⟨_, _, tokens'', _, hall⟩

end

end Trees

end Tree

/-! ## 5. Expressions -/

/-- An expression runs as a tree does: it is the tree itself, or compiled code that has the same
outcome under any bindings. -/
def Expression.RunsAs (x : Expression) (t : Tree) : Prop :=
  match x with
  | .compiled _ code nodes => ∀ b, SameOutcome (code.run (callNode nodes b) b) (t.value b)
  | .interpreted u => u = some t

/-- **Compiling a tree whose variables have keys succeeds, and gives code that runs as the tree under its
keys does.**  If the text is nested too deeply, it gives the tree itself. -/
theorem compile_keyed {Quality : Symbol → Prop} {t : Tree}
    (h : ∀ u ∈ t.preorder, u.Regular Quality) (hkeys : t.HasKeys) :
    ∃ x, compile (some t) = .ok x ∧
      (x = .interpreted (some t) ∨ x.source?.isSome = true ∧ x.RunsAs t.keyed) := by
  obtain ⟨text, new, tokens, code, ht⟩ := Tree.exists_translates t [] h hkeys
  have hwritten : t.emit [] = .ok (text, new) := ht.written
  have htext := ht.phrase.ofText
  by_cases hdeep : Token.staysWithin 0 tokens = true
  · rw [if_pos hdeep] at htext
    refine ⟨.compiled text code new, ?_, .inr ⟨rfl, fun b => ?_⟩⟩
    · simp [compile, expectRoot, hwritten, htext, bind, Except.bind, pure, Except.pure]
    · have := ht.runs [] b
      rwa [List.nil_append, List.append_nil] at this
  · rw [if_neg hdeep] at htext
    refine ⟨.interpreted (some t), ?_, .inl rfl⟩
    simp [compile, expectRoot, hwritten, htext, bind, Except.bind, pure, Except.pure]

/-- **Compiling a tree of usual symbols succeeds, and the expression runs as the tree does.** -/
theorem compile_runsAs {Quality : Symbol → Prop} {t : Tree}
    (h : ∀ u ∈ t.preorder, u.Ready Quality) : ∃ x, compile (some t) = .ok x ∧ x.RunsAs t := by
  have hplain : ∀ s, .variable s ∈ t.preorder → Text.Quoted.Plain s.name.toList :=
    fun s hs => (h _ hs).variable_plain
  have hkeys : t.HasKeys := fun s hs => by rw [Symbol.key?_plain (hplain s hs)]; rfl
  have hself : t.keyed = t := Tree.keyed_eq_self fun s hs =>
    ⟨s.name, hplain s hs, (h _ hs).regular.variable_eq⟩
  obtain ⟨x, hx, rfl | ⟨-, hruns⟩⟩ := compile_keyed (fun u hu => (h u hu).regular) hkeys
  · exact ⟨_, hx, rfl⟩
  · exact ⟨x, hx, hself ▸ hruns⟩

/-- An outcome fails with the name of a variable that is not bound. -/
def FailsFor {α : Type} (name : String) (result : Except Failure α) : Prop :=
  ∃ fault, result = .error (.evaluation fault) ∧ fault.symbol? = some name

/-- An outcome explains another: it has the same value, or both are failures and it names the
variable that is not bound if the other does. -/
inductive Explains {α : Type} : Except Failure α → Except Failure α → Prop
  | value (a : α) : Explains (.ok a) (.ok a)
  | failure {failure failure' : Failure} :
    (∀ name, failure' = .evaluation (.unboundVariable name) →
      FailsFor name (.error failure : Except Failure α)) →
        Explains (.error failure) (.error failure')

theorem Explains.refl {α : Type} (result : Except Failure α) : Explains result result := by
  cases result with
  | ok a => exact .value a
  | error failure =>
    refine .failure ?_
    rintro name rfl
    exact ⟨.unboundVariable name, rfl, rfl⟩

/-- Once the keys that are looked up in vain are explained, the same outcome explains the other. -/
theorem SameOutcome.explains {α : Type} {result result' : Except Failure α}
    (h : SameOutcome result result') : Explains (result.mapError Expression.explain) result' := by
  cases h with
  | same =>
    cases result with
    | ok a => exact .value a
    | error failure =>
      refine .failure ?_
      rintro name rfl
      exact ⟨.unboundVariable name, rfl, rfl⟩
  | missing name =>
    refine .failure ?_
    rintro _ ⟨⟩
    exact ⟨.unboundKey name, rfl, rfl⟩

/-- **What an expression evaluates to comes from a value, or a failure, that explains the tree's.** -/
theorem Expression.RunsAs.outcome {x : Expression} {t : Tree} (hx : x.RunsAs t) (b : Bindings) :
    ∃ result, x.evaluate b = result >>= Value.toNumber ∧
      (∀ count, x.evaluateColumns b count = result >>= fun v => .ok (v.toColumn count)) ∧
      Explains result (t.value b) := by
  cases x with
  | interpreted u =>
    obtain rfl : u = some t := hx
    exact ⟨t.value b, rfl, fun _ => rfl, .refl _⟩
  | compiled source code nodes =>
    exact ⟨Expression.runCode code nodes b, rfl, fun _ => rfl, (hx b).explains⟩

/-! ## 6. A small tree -/

/-- Twice a number: an operation without a template. -/
def Symbol.twice : Symbol where
  name := "Twice"
  least := 1
  most := 1
  operation := some (Value.lift fun xs => xs.getD 0 0.0 + xs.getD 0 0.0)

/-- The square of a variable and twice an infinite constant: `x² + 2 * inf`. -/
def Tree.small : Tree :=
  .node (.ofArithmetic "Addition" .addition "(\x7b0\x7d + \x7b1\x7d)" "Addition (+)")
    [.node (.ofPrimitive "Square" .square "x squared") [.variable (.forVariable "x")],
      .node .twice [.constant (.forConstant "Constant" defaultRange) Number.infinity]]

theorem Symbol.total_twice : Symbol.twice.Total := fun xs _ =>
  ⟨_, Value.lift_numbers (fun xs => xs.getD 0 0.0 + xs.getD 0 0.0) xs⟩

/-- The small tree is made as trees are made, passes the check, and has usual symbols. -/
theorem Tree.small_usual {Quality : Symbol → Prop} (h : Quality Symbol.twice) :
    Tree.small.Made ∧ Tree.small.check = .ok () ∧
      ∀ u ∈ Tree.small.preorder, u.symbol.Usual Quality := by
  have hnodes : ∀ {P : Tree → Prop}, (∀ u ∈ Tree.small.preorder, P u) ↔
      P Tree.small ∧ P (.node (.ofPrimitive "Square" .square "x squared")
        [.variable (.forVariable "x")]) ∧ P (.variable (.forVariable "x")) ∧
      P (.node .twice [.constant (.forConstant "Constant" defaultRange) Number.infinity]) ∧
      P (.constant (.forConstant "Constant" defaultRange) Number.infinity) := by
    intro P
    simp [small, preorder, preorderAll]
  refine ⟨?_, rfl, ?_⟩
  · refine hnodes.mpr ⟨?_, ?_, ?_, ?_, ?_⟩
    · exact ⟨rfl, rfl⟩
    · exact ⟨rfl, rfl⟩
    · exact rfl
    · exact ⟨rfl, rfl⟩
    · exact rfl
  · refine hnodes.mpr ⟨?_, ?_, ?_, ?_, ?_⟩
    · exact .standard (List.mem_flatMap.mpr ⟨.basic, by decide, List.mem_cons_self⟩)
    · exact .standard (List.mem_flatMap.mpr ⟨.extended, by decide,
        List.mem_cons_of_mem _ List.mem_cons_self⟩)
    · exact .input "x" ⟨by decide, by decide⟩
    · exact .custom rfl rfl rfl h
    · exact .fixed "Constant" defaultRange

end FormulaEvolution
