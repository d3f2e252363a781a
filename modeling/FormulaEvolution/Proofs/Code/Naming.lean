/-
# Names with braces in compiled trees

Any text can be the name of a variable, and evaluating a tree looks the name up as it is.  Compiling
does so only for names without braces:

* A tree is compiled exactly if every variable has a key (`Tree.emit_hasKeys`, `compile_keyed`): a brace
  that stands alone makes the template of its variable a bad one.
* What it is compiled to is about the keys, so with braces in a name it disagrees with the tree
  (`Tree.exists_key_unnamed`): of the names with braces, the key of a shortest one is no name of the
  tree.  Where all names are bound the tree has a value, and the expression lacks that key.

For a single variable this says that the value of its own name is found exactly if the name has no
braces (`compile_names_iff`).
-/
import FormulaEvolution.Proofs.Code.Agreement

namespace FormulaEvolution
namespace Tree

/-! ## 1. Trees without keys -/

mutual

/-- **In a tree that is written every variable has a key.** -/
theorem emit_hasKeys {Quality : Symbol → Prop} : ∀ {t : Tree} {nodes : List Tree}
    {written : List Char × List Tree}, (∀ u ∈ t.preorder, Regular Quality u) →
      t.emit nodes = .ok written → t.HasKeys
  | .constant s v, _, _, _, _ => by
    intro s' hs'
    rw [preorder] at hs'
    cases List.mem_singleton.mp hs'
  | .variable s, nodes, written, h, hwritten => by
    intro s' hs'
    rw [preorder] at hs'
    cases List.mem_singleton.mp hs'
    have hs : s = .forVariable s.name := (h (.variable s) (by simp [preorder])).variable_eq
    rw [hs, emit_variable] at hwritten
    cases htext : (Symbol.forVariable s.name).emit [] with
    | error failure =>
      rw [htext] at hwritten
      cases hwritten
    | ok text =>
      obtain ⟨key, hkey, -⟩ := Symbol.emit_forVariable_iff.mp htext
      rw [hkey]
      rfl
  | .node s cs, nodes, written, h, hwritten => by
    rw [emit] at hwritten
    obtain ⟨texts, htexts, -⟩ := Except.bind_ok hwritten
    intro s' hs'
    rw [preorder] at hs' h
    rcases List.mem_cons.mp hs' with heq | hs'
    · cases heq
    · exact emitAll_hasKeys (fun u hu => h u (List.mem_cons_of_mem _ hu)) htexts s' hs'

theorem emitAll_hasKeys {Quality : Symbol → Prop} : ∀ {cs nodes : List Tree}
    {written : List (List Char) × List Tree}, (∀ u ∈ preorderAll cs, Regular Quality u) →
      emitAll cs nodes = .ok written →
        ∀ s, .variable s ∈ preorderAll cs → (Symbol.key? s.name).isSome = true
  | [], _, _, _, _ => by
    intro s hs
    rw [preorderAll] at hs
    cases hs
  | c :: cs, nodes, written, h, hwritten => by
    rw [emitAll] at hwritten
    obtain ⟨⟨text, nodes'⟩, hc, hwritten⟩ := Except.bind_ok hwritten
    obtain ⟨⟨texts, nodes''⟩, hcs, -⟩ := Except.bind_ok hwritten
    intro s hs
    rw [preorderAll] at hs h
    rcases List.mem_append.mp hs with hs | hs
    · exact emit_hasKeys (fun u hu => h u (List.mem_append_left _ hu)) hc s hs
    · exact emitAll_hasKeys (fun u hu => h u (List.mem_append_right _ hu)) hcs s hs

end

/-! ## 2. Names and keys -/

/-- Only variables look up a name. -/
theorem exists_variable_of_input? {t : Tree} {name : String} (h : t.input? = some name) :
    ∃ s, t = .variable s ∧ s.name = name := by
  cases t with
  | constant s value => cases h
  | «variable» s => exact ⟨s, rfl, Option.some.inj h⟩
  | node s cs => cases h

/-- No variable has braces in its name. -/
def Braceless (t : Tree) : Prop :=
  ∀ s, .variable s ∈ t.preorder → Text.Quoted.Plain s.name.toList

theorem Braceless.hasKeys {t : Tree} (hbraceless : t.Braceless) : t.HasKeys := fun s hs => by
  rw [Symbol.key?_plain (hbraceless s hs)]
  rfl

/-- Without braces in its names, a tree is the one under its keys. -/
theorem Braceless.keyed_eq {Quality : Symbol → Prop} {t : Tree} (hbraceless : t.Braceless)
    (h : ∀ u ∈ t.preorder, Regular Quality u) : t.keyed = t :=
  keyed_eq_self fun s hs => ⟨s.name, hbraceless s hs, (h _ hs).variable_eq⟩

/-- **If a name has braces, there is a variable whose key is no name**: the one with the shortest name
of those, since its key is shorter and has braces too. -/
theorem exists_key_unnamed {t : Tree} (hkeys : t.HasKeys) {s : Symbol}
    (hs : .variable s ∈ t.preorder) (hbraces : ¬Text.Quoted.Plain s.name.toList) :
    ∃ s' key, .variable s' ∈ t.preorder ∧ Symbol.key? s'.name = some key ∧
      ∀ u ∈ t.preorder, u.input? ≠ some key := by
  obtain ⟨key, hkey⟩ := Option.isSome_iff_exists.mp (hkeys s hs)
  by_cases hnamed : ∃ u ∈ t.preorder, u.input? = some key
  · obtain ⟨u, hu, hinput⟩ := hnamed
    obtain ⟨s', rfl, hname⟩ := exists_variable_of_input? hinput
    rcases Symbol.key?_shorter hkey with ⟨hplain, -⟩ | ⟨hbraces', hshorter⟩
    · exact absurd hplain hbraces
    · rw [← hname] at hbraces' hshorter
      exact exists_key_unnamed hkeys hu hbraces'
  · exact ⟨s, key, hs, hkey, fun u hu hinput => hnamed ⟨u, hu, hinput⟩⟩
termination_by s.name.toList.length

/-- The variables of a tree, all bound to zero. -/
def allBound (t : Tree) : Dictionary Float := (t.preorder.filterMap input?).map fun name => (name, 0.0)

theorem isSome_value?_allBound {t : Tree} {name : String} :
    (t.allBound.value? name).isSome = true ↔ ∃ u ∈ t.preorder, u.input? = some name := by
  rw [allBound, Dictionary.value?, Option.isSome_map, List.find?_isSome, ← List.mem_filterMap]
  simp [-List.mem_filterMap]

theorem firstUnbound_allBound (t : Tree) : t.firstUnbound t.allBound = none := by
  rw [firstUnbound, List.find?_eq_none]
  intro name hname
  have hbound := isSome_value?_allBound.mpr (List.mem_filterMap.mp hname)
  simpa [Option.isSome_iff_ne_none] using hbound

/-- With a brace in a name, some key is not bound where all names are. -/
theorem firstUnbound_keyed {t : Tree} (hkeys : t.HasKeys) {s : Symbol}
    (hs : .variable s ∈ t.preorder) (hbraces : ¬Text.Quoted.Plain s.name.toList) :
    ∃ key, t.keyed.firstUnbound t.allBound = some key := by
  obtain ⟨s', key, hs', hkey, hunnamed⟩ := exists_key_unnamed hkeys hs hbraces
  have hinput : (keyed (.variable s')).input? = some key := by
    rw [keyed, hkey]
    rfl
  have hmem : key ∈ t.keyed.preorder.filterMap input? := by
    rw [preorder_keyed]
    exact List.mem_filterMap.mpr ⟨_, List.mem_map_of_mem hs', hinput⟩
  have hunbound : (t.allBound.value? key).isNone = true := by
    rw [← Option.not_isSome, Bool.not_eq_true', Bool.eq_false_iff, Ne, isSome_value?_allBound]
    rintro ⟨u, hu, hname⟩
    exact hunnamed u hu hname
  rw [← Option.isSome_iff_exists, firstUnbound, List.find?_isSome]
  exact ⟨key, hmem, hunbound⟩

end Tree

/-- **A tree is compiled exactly if every variable has a key.** -/
theorem compile_ok_iff {Quality : Symbol → Prop} {t : Tree}
    (h : ∀ u ∈ t.preorder, u.Regular Quality) : (∃ x, compile (some t) = .ok x) ↔ t.HasKeys := by
  constructor
  · rintro ⟨x, hx⟩
    obtain ⟨_, ht, hcompiled⟩ := Except.bind_ok hx
    cases ht
    obtain ⟨written, hwritten, -⟩ := Except.bind_ok hcompiled
    exact Tree.emit_hasKeys h hwritten
  · intro hkeys
    obtain ⟨x, hx, -⟩ := compile_keyed h hkeys
    exact ⟨x, hx⟩

/-! ## 3. One variable -/

section Single

variable {name key : String}

theorem Tree.regular_variable (Quality : Symbol → Prop) :
    ∀ u ∈ (Tree.variable (.forVariable name)).preorder, u.Regular Quality := by
  intro u hu
  rw [Tree.preorder] at hu
  obtain rfl := List.mem_singleton.mp hu
  exact ⟨rfl, rfl, .inr ⟨name, rfl⟩⟩

/-- **A variable is compiled to the look-up of its key.** -/
theorem compile_variable (hkey : Symbol.key? name = some key) :
    compile (some (.variable (.forVariable name))) =
      .ok (.compiled (Symbol.variableText key).toList (.input key) []) := by
  have hemit := Symbol.emit_forVariable_iff.mpr ⟨key, hkey, rfl⟩
  have hwritten : Tree.emit (.variable (.forVariable name)) [] =
      .ok ((Symbol.variableText key).toList, []) := by
    rw [Tree.emit_variable, hemit]
    rfl
  have htext : Code.ofText? (Symbol.variableText key).toList = some (.input key) :=
    (phrase_input key).ofText.trans (if_pos (by simp [Token.staysWithin, Token.nestingLimit]))
  simp [compile, expectRoot, hwritten, htext, bind, Except.bind, pure, Except.pure]

/-- An expression finds the value that is bound to a name, as the variable of that name does. -/
def Expression.Finds (x : Expression) (name : String) : Prop :=
  ∀ (b : Bindings) (v : Value), b.value? name = some v →
    x.evaluate b = v.toNumber ∧ (∀ count, x.evaluateColumns b count = .ok (v.toColumn count)) ∧
      FormulaEvolution.evaluate (some (.variable (.forVariable name))) b = v.toNumber

/-- The look-up of a key finds the value of that name only: another name may be all that is bound. -/
theorem finds_input_iff (source : List Char) :
    (Expression.compiled source (.input key) []).Finds name ↔ key = name := by
  constructor
  · intro hfinds
    by_contra hne
    have hlacks : Dictionary.value? [(name, Value.number 0.0)] key = none := by
      simp [Dictionary.value?, Ne.symm hne]
    have hfound := (hfinds [(name, .number 0.0)] (.number 0.0) (by simp [Dictionary.value?])).1
    simp only [Expression.evaluate, Expression.runCode, Code.run, hlacks] at hfound
    cases hfound
  · rintro rfl b v hv
    refine ⟨?_, fun count => ?_, ?_⟩
    · simp only [Expression.evaluate, Expression.runCode, Code.run, hv]
      rfl
    · simp only [Expression.evaluateColumns, Expression.runCode, Code.run, hv]
      rfl
    · have hvalue := Tree.value_bound (s := .forVariable key) hv
      simp only [evaluate, expectRoot, bind, Except.bind, hvalue]

/-- **A variable is compiled to an expression that finds the value of its name exactly if the name has
no braces.** -/
theorem compile_finds_iff :
    (∃ x, compile (some (.variable (.forVariable name))) = .ok x ∧ x.Finds name) ↔
      Text.Quoted.Plain name.toList := by
  constructor
  · rintro ⟨x, hx, hfinds⟩
    have hkeys := (compile_ok_iff (Tree.regular_variable Symbol.Total)).mp ⟨x, hx⟩
    obtain ⟨key, hkey⟩ := Option.isSome_iff_exists.mp
      (hkeys (.forVariable name) (by rw [Tree.preorder]; exact List.mem_singleton_self _))
    obtain rfl := Except.ok.inj (hx.symm.trans (compile_variable hkey))
    obtain rfl := (finds_input_iff _).mp hfinds
    rcases Symbol.key?_shorter hkey with ⟨hplain, -⟩ | ⟨-, hshorter⟩
    · exact hplain
    · exact absurd hshorter (Nat.lt_irrefl _)
  · intro hplain
    exact ⟨_, compile_variable (Symbol.key?_plain hplain), (finds_input_iff _).mpr rfl⟩

end Single

/-! ## 4. All trees -/

section Trees

variable {t : Tree} {x : Expression}

/-- **What runs as a tree under its keys agrees with the tree exactly if no name has braces.** -/
theorem agrees_iff_braceless (h : ∀ u ∈ t.preorder, u.Regular Symbol.Total) (hkeys : t.HasKeys)
    (hx : x.RunsAs t.keyed) : (∀ d : Dictionary Float, Agree (t.firstUnbound d)
      (x.evaluate (.ofNumbers d)) (evaluate (some t) (.ofNumbers d))) ↔ t.Braceless := by
  constructor
  · intro hagree s hs
    by_contra hbraces
    obtain ⟨key, hkey⟩ := Tree.firstUnbound_keyed hkeys hs hbraces
    have hunder := hx.agrees (Tree.regular_keyed h) t.allBound
    have hself := hagree t.allBound
    rw [hkey] at hunder
    rw [t.firstUnbound_allBound] at hself
    obtain ⟨⟨fault, hfails, -⟩, -⟩ := hunder
    obtain ⟨y, hy, -⟩ := hself
    rw [hfails] at hy
    cases hy
  · intro hbraceless d
    rw [hbraceless.keyed_eq h] at hx
    exact hx.agrees h d

end Trees

/-- **Compiling keeps names exactly as far as they have no braces**, for every name and every tree of
common symbols with total operations that passes the check.  A variable alone is compiled to what finds
the value of its name exactly if the name has no braces.  A tree is compiled exactly if every variable
has a key; unless it is nested too deeply and stays as it is, the expression then agrees with the tree
under its keys, and with the tree itself exactly if no name has braces. -/
theorem compile_names_iff (name : String) {t : Tree} (hmade : t.Made) (hcheck : t.check = .ok ())
    (hcommon : ∀ u ∈ t.preorder, u.symbol.Common Symbol.Total) :
    ((∃ x, compile (some (.variable (.forVariable name))) = .ok x ∧ x.Finds name) ↔
      Text.Quoted.Plain name.toList) ∧
    ((∃ x, compile (some t) = .ok x) ↔ t.HasKeys) ∧
    ∀ x, compile (some t) = .ok x → x = .interpreted (some t) ∨
      (∀ d : Dictionary Float, Agree (t.keyed.firstUnbound d) (x.evaluate (.ofNumbers d))
        (evaluate (some t.keyed) (.ofNumbers d))) ∧
      ((∀ d : Dictionary Float, Agree (t.firstUnbound d) (x.evaluate (.ofNumbers d))
        (evaluate (some t) (.ofNumbers d))) ↔ t.Braceless) := by
  have hregular : ∀ u ∈ t.preorder, u.Regular Symbol.Total := fun u hu =>
    ⟨hmade u hu, (t.check_eq_ok_iff.mp hcheck) u hu, hcommon u hu⟩
  refine ⟨compile_finds_iff, compile_ok_iff hregular, fun x hx => ?_⟩
  have hkeys := (compile_ok_iff hregular).mp ⟨x, hx⟩
  obtain ⟨y, hy, hruns⟩ := compile_keyed hregular hkeys
  obtain rfl : x = y := Except.ok.inj (hx.symm.trans hy)
  refine hruns.imp_right fun ⟨_, hruns⟩ => ⟨?_, agrees_iff_braceless hregular hkeys hruns⟩
  exact hruns.agrees (Tree.regular_keyed hregular)

/-- Twice a variable whose name has doubled braces. -/
def Tree.doubled : Tree := .node .twice [.variable (.forVariable "\x7b\x7ba\x7d\x7d")]

/-- The name with doubled braces has a key, so the tree is compiled, but to what looks up that key. -/
theorem doubled_names : Tree.doubled.Made ∧ Tree.doubled.check = .ok () ∧
    (∀ u ∈ Tree.doubled.preorder, u.symbol.Common Symbol.Total) ∧
    (¬∃ x, compile (some (.variable (.forVariable "\x7b\x7ba\x7d\x7d"))) = .ok x ∧
      x.Finds "\x7b\x7ba\x7d\x7d") ∧
    ∃ x, compile (some .doubled) = .ok x := by
  have hnodes : ∀ {P : Tree → Prop}, (∀ u ∈ Tree.doubled.preorder, P u) ↔
      P .doubled ∧ P (.variable (.forVariable "\x7b\x7ba\x7d\x7d")) := by
    intro P
    simp [Tree.doubled, Tree.preorder, Tree.preorderAll]
  have hmade : Tree.doubled.Made := hnodes.mpr ⟨⟨rfl, rfl⟩, rfl⟩
  have hcommon : ∀ u ∈ Tree.doubled.preorder, u.symbol.Common Symbol.Total :=
    hnodes.mpr ⟨.inl (.custom rfl rfl rfl Symbol.total_twice), .inr ⟨_, rfl⟩⟩
  obtain ⟨hfinds, hcompiled, -⟩ :=
    compile_names_iff "\x7b\x7ba\x7d\x7d" hmade rfl hcommon
  refine ⟨hmade, rfl, hcommon, fun h => ?_, hcompiled.mpr fun s hs => ?_⟩
  · have hplain : ¬Text.Quoted.Plain "\x7b\x7ba\x7d\x7d".toList := fun hplain =>
      hplain.1 (by decide)
    exact hplain (hfinds.mp h)
  · obtain rfl : s = .forVariable "\x7b\x7ba\x7d\x7d" := by
      simpa [Tree.doubled, Tree.preorder, Tree.preorderAll] using hs
    decide

/-- A variable whose name has a brace that stands alone is not compiled.  One with doubled braces is
compiled to what finds the value of another variable. -/
theorem compile_braces :
    (compile (some (.variable (.forVariable "a\x7bb"))) = .error (.invalid (.template .unclosedField)) ∧
      evaluate (some (.variable (.forVariable "a\x7bb"))) [("a\x7bb", .number 1.0)] = .ok 1.0) ∧
    ∃ x, compile (some (.variable (.forVariable "\x7b\x7ba\x7d\x7d"))) = .ok x ∧
      x.evaluate [("\x7b\x7ba\x7d\x7d", .number 1.0), ("\x7ba\x7d", .number 2.0)] = .ok 2.0 ∧
      evaluate (some (.variable (.forVariable "\x7b\x7ba\x7d\x7d")))
        [("\x7b\x7ba\x7d\x7d", .number 1.0), ("\x7ba\x7d", .number 2.0)] = .ok 1.0 :=
  ⟨⟨rfl, rfl⟩, _, compile_variable (show Symbol.key? _ = some "\x7ba\x7d" by decide), rfl, rfl⟩

end FormulaEvolution
