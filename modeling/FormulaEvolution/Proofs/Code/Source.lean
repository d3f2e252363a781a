/-
# The names in compiled texts

What a tree is compiled to is run among a few names: those of the primitives, the variables, the nodes
that are called and the call of one.  Texts that come from outside, the names of variables, are in it
only inside quotes.

A text is `Tame` if it is a phrase whose tokens mention no names but those.  Since phrases are cut
into tokens whatever follows them, tame texts stay tame inside others, and so do the texts of trees
(`Tree.emit_tame`): there is a lemma for each way to write a node.

The one thing to watch is that templates are filled after names have been quoted.  A variable is filled
with nothing, so its text becomes the text of another variable at most (`Symbol.emit_forVariable_iff`).
-/
import FormulaEvolution.Proofs.Code.Constants
import FormulaEvolution.Proofs.Sequence
import FormulaEvolution.Proofs.Symbol.Usual
import FormulaEvolution.Proofs.Text.Braces

namespace FormulaEvolution

/-! ## 1. Names in scope -/

/-- The names that a compiled text may mention. -/
def Code.InScope (n : String) : Prop :=
  (∃ p : Primitive, n = p.shortName) ∨ n = variablesName ∨ n = nodesName ∨ n = nodeCallName

namespace Token

/-- Tokens that mention only names in scope. -/
def Scoped (tokens : List Token) : Prop := ∀ n, .name n ∈ tokens → Code.InScope n

section Scoped

variable {tokens tokens' : List Token}

@[simp] theorem scoped_nil : Scoped [] := nofun

@[simp] theorem scoped_name {n : String} :
    Scoped (.name n :: tokens) ↔ Code.InScope n ∧ Scoped tokens := by
  simp [Scoped, or_imp, forall_and]

@[simp] theorem scoped_mark {c : Char} : Scoped (.mark c :: tokens) ↔ Scoped tokens := by
  simp [Scoped]

@[simp] theorem scoped_quoted {text : String} : Scoped (.quoted text :: tokens) ↔ Scoped tokens := by
  simp [Scoped]

@[simp] theorem scoped_whole {n : Nat} : Scoped (.whole n :: tokens) ↔ Scoped tokens := by
  simp [Scoped]

@[simp] theorem scoped_append : Scoped (tokens ++ tokens') ↔ Scoped tokens ∧ Scoped tokens' := by
  simp [Scoped, or_imp, forall_and]

end Scoped
end Token

/-! ## 2. Tame texts -/

/-- A text that is a phrase and mentions only names in scope. -/
def Tame (text : List Char) : Prop :=
  ∃ tokens code, Phrase text tokens code ∧ Token.Scoped tokens

/-- A tame text is cut into tokens that mention only names in scope. -/
theorem Tame.scan {text : List Char} (h : Tame text) :
    ∃ tokens, Token.scan text = some tokens ∧ Token.Scoped tokens := by
  obtain ⟨tokens, code, hphrase, hscoped⟩ := h
  have hscan := hphrase.scan []
  rw [List.append_nil, Token.scan_nil, Option.map_some, List.append_nil] at hscan
  exact ⟨tokens, hscan, hscoped⟩

section Texts

variable {texts : List (List Char)}

/-- Tame texts are phrases that together mention only names in scope. -/
theorem exists_phrases : ∀ {texts : List (List Char)}, (∀ text ∈ texts, Tame text) →
    ∃ tokens codes, Phrases texts tokens codes ∧ Token.Scoped tokens
  | [], _ => ⟨[], [], .nil, Token.scoped_nil⟩
  | [text], h => by
    obtain ⟨tokens, code, hphrase, hscoped⟩ := h text List.mem_cons_self
    exact ⟨tokens, [code], .single hphrase, hscoped⟩
  | text :: next :: texts, h => by
    obtain ⟨tokens, code, hphrase, hscoped⟩ := h text List.mem_cons_self
    obtain ⟨rest, codes, hrest, hscopedRest⟩ :=
      exists_phrases fun other hother => h other (List.mem_cons_of_mem text hother)
    exact ⟨_, _, .cons hphrase hrest (by simp), by simp [hscoped, hscopedRest]⟩

theorem tame_variable (name : String) : Tame (Symbol.variableText name).toList :=
  ⟨_, _, phrase_input name, by simp [Code.InScope]⟩

theorem tame_constant {value : Float} (hfinite : Number.isFinite value = true) :
    Tame (constantText value) := by
  obtain ⟨tokens, code, hphrase, hnone, -⟩ := phrase_constant hfinite
  exact ⟨tokens, code, hphrase, fun n hn => absurd hn (hnone n)⟩

theorem tame_sign (a : Arithmetic) {text text' : List Char} (h : Tame text) (h' : Tame text') :
    Tame ('(' :: (text ++ ' ' :: a.mark :: ' ' :: (text' ++ [')']))) := by
  obtain ⟨tokens, code, hphrase, hscoped⟩ := h
  obtain ⟨tokens', code', hphrase', hscoped'⟩ := h'
  exact ⟨_, _, phrase_sign a.sign_mark hphrase hphrase', by simp [hscoped, hscoped']⟩

theorem tame_call (p : Primitive) (h : ∀ text ∈ texts, Tame text) :
    Tame (Symbol.callText p.shortName texts) := by
  obtain ⟨tokens, codes, hphrases, hscoped⟩ := exists_phrases h
  obtain ⟨hname, hne⟩ := p.isNameText_shortName
  have hself : Code.InScope p.shortName := .inl ⟨p, rfl⟩
  exact ⟨_, _, phrase_call hname hne hphrases, by simp [hself, hscoped]⟩

theorem tame_node (index : Nat) (h : ∀ text ∈ texts, Tame text) : Tame (nodeCallText index texts) := by
  obtain ⟨tokens, codes, hphrases, hscoped⟩ := exists_phrases h
  exact ⟨_, _, phrase_node index hphrases, by simp [Code.InScope, hscoped]⟩

/-- **Standard symbols keep texts tame**, over any number of children. -/
theorem Symbol.emit_standard_tame {s : Symbol} (hs : s ∈ standardSymbols)
    (h : ∀ text ∈ texts, Tame text) {text : List Char} (htext : s.emit texts = .ok text) :
    Tame text := by
  rcases (Symbol.standard_cases hs).2 with ⟨p, hp⟩ | ⟨a, ha⟩
  · rw [Symbol.emit, hp.2.1] at htext
    cases htext
    exact tame_call p h
  · obtain ⟨x, y, rest, rfl, rfl⟩ := ha.emit_iff.mp htext
    exact tame_sign a (h x (by simp)) (h y (by simp))

end Texts

/-! ## 3. Trees -/

namespace Tree

/-- A node whose symbol is a standard one, or one without a template, or that of a variable with any
name, which takes no children. -/
def Ordinary (u : Tree) : Prop :=
  u.symbol ∈ standardSymbols ∨ u.symbol.isCompilable = false ∨
    ∃ name, u.symbol = .forVariable name ∧ u.children = []

section Nodes

variable {t : Tree} {texts : List (List Char)}

/-- **The templates of ordinary nodes keep texts tame.** -/
theorem Ordinary.tame (ht : t.Ordinary) (hcount : texts.length = t.children.length)
    (h : ∀ text ∈ texts, Tame text) {text : List Char} (htext : t.symbol.emit texts = .ok text) :
    Tame text := by
  rcases ht with hs | hnot | ⟨name, hname, hchildren⟩
  · exact Symbol.emit_standard_tame hs h htext
  · have hnone : t.symbol.template = none := by simpa [Symbol.isCompilable] using hnot
    rw [Symbol.emit, hnone] at htext
    cases htext
  · have hnil : texts = [] := List.length_eq_zero_iff.mp (by rw [hcount, hchildren]; rfl)
    rw [hname, hnil] at htext
    obtain ⟨key, -, heq⟩ := Symbol.emit_forVariable_iff.mp htext
    rw [heq]
    exact tame_variable key

theorem emitNode_tame (ht : t.Ordinary) (hcount : texts.length = t.children.length)
    (h : ∀ text ∈ texts, Tame text) {nodes : List Tree} {written : List Char × List Tree}
    (hwritten : t.emitNode texts nodes = .ok written) : Tame written.1 := by
  rw [emitNode] at hwritten
  cases hcompilable : t.symbol.isCompilable with
  | false =>
    rw [hcompilable] at hwritten
    cases hwritten
    exact tame_node nodes.length h
  | true =>
    rw [hcompilable, if_pos rfl] at hwritten
    cases htext : t.symbol.emit texts with
    | error failure =>
      rw [htext] at hwritten
      cases hwritten
    | ok text =>
      rw [htext] at hwritten
      cases hwritten
      exact ht.tame hcount h htext

end Nodes

mutual

/-- **What is written for a tree of ordinary nodes is tame.** -/
theorem emit_tame : ∀ {t : Tree} {nodes : List Tree} {written : List Char × List Tree},
    (∀ u ∈ t.preorder, u.Ordinary) → t.emit nodes = .ok written → Tame written.1
  | .constant s value, nodes, written, h, hwritten => by
    rw [emit] at hwritten
    cases hfinite : Number.isFinite value with
    | true =>
      rw [if_pos hfinite] at hwritten
      cases hwritten
      exact tame_constant hfinite
    | false =>
      rw [hfinite, if_neg Bool.false_ne_true] at hwritten
      exact emitNode_tame (h _ (by simp [preorder])) rfl (List.forall_mem_nil _) hwritten
  | .variable s, nodes, written, h, hwritten => by
    rw [emit] at hwritten
    exact emitNode_tame (h _ (by simp [preorder])) rfl (List.forall_mem_nil _) hwritten
  | .node s cs, nodes, written, h, hwritten => by
    rw [emit] at hwritten
    obtain ⟨⟨texts, nodes'⟩, hcs, hnode⟩ := Except.bind_ok hwritten
    rw [preorder] at h
    obtain ⟨hcount, htexts⟩ := emitAll_tame (fun u hu => h u (List.mem_cons_of_mem _ hu)) hcs
    exact emitNode_tame (h _ List.mem_cons_self) hcount htexts hnode

theorem emitAll_tame : ∀ {cs nodes : List Tree} {written : List (List Char) × List Tree},
    (∀ u ∈ preorderAll cs, u.Ordinary) → emitAll cs nodes = .ok written →
      written.1.length = cs.length ∧ ∀ text ∈ written.1, Tame text
  | [], _, written, _, hwritten => by
    rw [emitAll] at hwritten
    cases hwritten
    exact ⟨rfl, nofun⟩
  | c :: cs, nodes, written, h, hwritten => by
    rw [emitAll] at hwritten
    obtain ⟨⟨text, nodes'⟩, hc, hwritten⟩ := Except.bind_ok hwritten
    obtain ⟨⟨texts, nodes''⟩, hcs, hwritten⟩ := Except.bind_ok hwritten
    cases hwritten
    rw [preorderAll] at h
    have htext := emit_tame (fun u hu => h u (List.mem_append_left _ hu)) hc
    obtain ⟨hcount, htexts⟩ := emitAll_tame (fun u hu => h u (List.mem_append_right _ hu)) hcs
    exact ⟨congrArg Nat.succ hcount, List.forall_mem_cons.mpr ⟨htext, htexts⟩⟩

end

end Tree

/-- **No name of a variable gets out of its quotes.**  Whenever something is written for a variable, it
is the subscription of the variables by one quoted literal, with nothing before or after it.  Whatever
is written for a tree of ordinary nodes is cut into tokens, and the names that those mention are those
of primitives, of the variables, of the nodes and of the call of a node. -/
theorem source_scoped :
    (∀ (name : String) (text : List Char), (Symbol.forVariable name).emit [] = .ok text →
      ∃ literal key, Text.Quoted.Literal literal ∧ text = "variables[".toList ++ (literal ++ [']']) ∧
        Token.scan text = some [.name "variables", .mark '[', .quoted key, .mark ']'] ∧
        Code.ofText? text = some (.input key)) ∧
    ∀ t : Tree, (∀ u ∈ t.preorder, u.Ordinary) →
      ∀ nodes text nodes', t.emit nodes = .ok (text, nodes') →
        ∃ tokens, Token.scan text = some tokens ∧ ∀ n, .name n ∈ tokens → Code.InScope n := by
  constructor
  · intro name text htext
    obtain ⟨key, -, heq⟩ := Symbol.emit_forVariable_iff.mp htext
    rw [heq]
    refine ⟨Text.Quoted.encode key.toList, key, Text.Quoted.literal_encode _,
      Symbol.toList_variableText key, ?_, ?_⟩
    · have hscan := (phrase_input key).scan []
      rwa [List.append_nil, Token.scan_nil, Option.map_some, List.append_nil] at hscan
    · exact (phrase_input key).ofText.trans (if_pos (by simp [Token.staysWithin, Token.nestingLimit]))
  · intro t ht nodes text nodes' hwritten
    exact (Tree.emit_tame ht hwritten).scan

/-- A variable that is named like code, with a quote to close those that it stands in. -/
def Tree.hostile : Tree :=
  .node (.ofArithmetic "Addition" .addition "(\x7b0\x7d + \x7b1\x7d)" "Addition (+)")
    [.variable (.forVariable "'] + \x7b\x7b__import__(\"os\")\x7d\x7d + variables['"),
      .constant (.forConstant "Constant" defaultRange) Number.infinity]

/-- The name stays in its quotes, and the text of the tree mentions no name that is in it. -/
theorem hostile_scoped :
    (∃ text, (Symbol.forVariable "'] + \x7b\x7b__import__(\"os\")\x7d\x7d + variables['").emit [] =
        .ok text ∧
      ∃ literal key, Text.Quoted.Literal literal ∧ text = "variables[".toList ++ (literal ++ [']']) ∧
        Token.scan text = some [.name "variables", .mark '[', .quoted key, .mark ']'] ∧
        Code.ofText? text = some (.input key)) ∧
    (∀ u ∈ Tree.hostile.preorder, u.Ordinary) ∧
    ∃ text nodes, Tree.hostile.emit [] = .ok (text, nodes) ∧
      ∃ tokens, Token.scan text = some tokens ∧ ∀ n, .name n ∈ tokens → Code.InScope n := by
  have hordinary : ∀ u ∈ Tree.hostile.preorder, u.Ordinary := by
    simp only [Tree.hostile, Tree.preorder, Tree.preorderAll, List.mem_cons, List.mem_append,
      List.not_mem_nil, or_false]
    rintro u (rfl | rfl | rfl)
    · exact .inl (List.mem_flatMap.mpr ⟨.basic, by decide, List.mem_cons_self⟩)
    · exact .inr (.inr ⟨_, rfl, rfl⟩)
    · exact .inr (.inl rfl)
  obtain ⟨hnames, htrees⟩ := source_scoped
  obtain ⟨key, hkey⟩ := Option.isSome_iff_exists.mp (show
    (Symbol.key? "'] + \x7b\x7b__import__(\"os\")\x7d\x7d + variables['").isSome = true by
      decide +kernel)
  have hname := Symbol.emit_forVariable_iff.mpr ⟨key, hkey, rfl⟩
  have htree : Tree.hostile.emit [] = .ok (_, _) := rfl
  exact ⟨⟨_, hname, hnames _ _ hname⟩, hordinary, _, _, htree, htrees _ hordinary _ _ _ htree⟩

end FormulaEvolution
