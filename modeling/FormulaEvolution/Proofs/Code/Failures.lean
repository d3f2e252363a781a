/-
# Failures of compiled expressions

A compiled expression fails where its tree does, and in the same way but for look-ups: around the code
as a whole, every key that was looked up in vain is told as a variable that is not bound.  A tree tells
so of its own variables only.

* For the variables themselves that makes no difference to the class: both are evaluation faults.
* Any failure of an operation comes out as it is, if it is not a missing key (`Passed.same`).
* A missing key of an operation comes out of the tree as it is, and out of compiled code as an
  evaluation fault (`Passed.key`).

`Passed` is the relation between both outcomes; `compile_failures` says what it means for classes.
-/
import FormulaEvolution.Proofs.Code.Agreement

namespace FormulaEvolution

/-! ## 1. Classes of failures -/

namespace Failure

/-- The classes of failures. -/
inductive Kind where
  | tooManyChildren
  | tooFewChildren
  | childCount
  | configuration
  | evaluation
  | shape
  | uncopyable
  | value
  | document
  | key
  | index
  | type
  | member
  | division
  | overflow
  | name
  | unimplemented
  | recursion
  | missingFile
  | blockedPath
  | folder
  | noFolder
  deriving DecidableEq, Repr

/-- The class of an arity fault. -/
def arityKind : ArityBreach → Kind
  | .tooMany _ => .tooManyChildren
  | .tooFew _ => .tooFewChildren
  | .outside => .childCount

/-- The class of a failure. -/
def kind : Failure → Kind
  | .arity fault => arityKind fault.breach
  | .configuration _ => .configuration
  | .evaluation _ => .evaluation
  | .shape _ => .shape
  | .uncopyable _ => .uncopyable
  | .invalid _ => .value
  | .document _ => .document
  | .absentKey _ => .key
  | .absentValue _ => .key
  | .range _ => .index
  | .mistyped _ => .type
  | .noSuchMember => .member
  | .divisionByZero => .division
  | .overflow => .overflow
  | .boundless => .overflow
  | .undefinedName _ => .name
  | .unimplemented => .unimplemented
  | .endless => .recursion
  | .missingFile _ => .missingFile
  | .blockedPath _ => .blockedPath
  | .isFolder _ => .folder
  | .notFolder _ => .noFolder

/-- No arity fault is a missing key. -/
theorem arityKind_ne_key (breach : ArityBreach) : arityKind breach ≠ .key := by
  cases breach <;> nofun

/-- Only missing keys are explained. -/
theorem explain_of_ne {failure : Failure} (h : failure.kind ≠ .key) :
    Expression.explain failure = failure := by
  cases failure with
  | absentKey key => exact absurd rfl h
  | absentValue shown => exact absurd rfl h
  | _ => rfl

/-- Missing keys are explained as evaluation faults. -/
theorem kind_explain {failure : Failure} (h : failure.kind = .key) :
    (Expression.explain failure).kind = .evaluation := by
  cases failure with
  | absentKey key => rfl
  | absentValue shown => rfl
  | arity fault => exact absurd h (arityKind_ne_key fault.breach)
  | _ => cases h

end Failure

/-! ## 2. What passes through compiled code -/

/-- The outcome of compiled code beside that of its tree: the same, unless a variable is not bound or
an operation misses a key. -/
inductive Passed {α : Type} : Except Failure α → Except Failure α → Prop
  | same {result : Except Failure α} :
    (∀ failure, result = .error failure → failure.kind ≠ .key) → Passed result result
  | unbound (name : String) : Passed (.error (.evaluation (.unboundKey name)))
      (.error (.evaluation (.unboundVariable name)))
  | key {failure : Failure} : failure.kind = .key →
      Passed (.error (Expression.explain failure)) (.error failure)

section Passing

variable {α β : Type} {first first' : Except Failure α}

/-- Explaining the keys that were looked up in vain passes everything else. -/
theorem SameOutcome.passed (h : SameOutcome first first') :
    Passed (first.mapError Expression.explain) first' := by
  cases h with
  | same =>
    cases first with
    | ok a => exact .same fun failure h => by cases h
    | error failure =>
      by_cases hkey : failure.kind = .key
      · exact .key hkey
      · have hself : (.error failure : Except Failure α).mapError Expression.explain =
            .error failure := congrArg Except.error (Failure.explain_of_ne hkey)
        rw [hself]
        refine .same ?_
        rintro _ ⟨⟩
        exact hkey
  | missing name => exact .unbound name

/-- Going on in the same way, without missing a key. -/
theorem Passed.bind {next : α → Except Failure β} (h : Passed first first')
    (hnext : ∀ a failure, next a = .error failure → failure.kind ≠ .key) :
    Passed (first >>= next) (first' >>= next) := by
  cases h with
  | same hsame =>
    refine .same fun failure hfails => ?_
    cases first with
    | error failure' =>
      cases hfails
      exact hsame _ rfl
    | ok a => exact hnext a failure hfails
  | unbound name => exact .unbound name
  | key hkey => exact .key hkey

theorem Passed.ok_iff (h : Passed first first') (a : α) : first = .ok a ↔ first' = .ok a := by
  cases h with
  | same _ => rfl
  | unbound name => exact ⟨nofun, nofun⟩
  | key _ => exact ⟨nofun, nofun⟩

/-- **A failure passes in its class exactly if it is no missing key**; of those that pass, only
evaluation faults may be told differently. -/
theorem Passed.failure (h : Passed first first') {failure : Failure} (hfails : first' = .error failure) :
    ∃ failure', first = .error failure' ∧ (failure'.kind = failure.kind ↔ failure.kind ≠ .key) ∧
      (failure.kind = .key → failure'.kind = .evaluation) ∧
      (failure.kind ≠ .key → failure.kind ≠ .evaluation → failure' = failure) := by
  cases h with
  | same hsame =>
    have hne := hsame failure hfails
    exact ⟨failure, hfails, iff_of_true rfl hne, fun hkey => absurd hkey hne, fun _ _ => rfl⟩
  | unbound name =>
    cases hfails
    exact ⟨_, rfl, iff_of_true rfl nofun, nofun, fun _ hne => absurd rfl hne⟩
  | key hkey =>
    cases hfails
    have hkind := Failure.kind_explain hkey
    refine ⟨_, rfl, ?_, fun _ => hkind, fun hne => absurd hkey hne⟩
    rw [hkind, hkey]
    decide

end Passing

/-- A value that is no number is of the wrong type. -/
theorem Value.kind_toNumber (v : Value) (failure : Failure) (h : v.toNumber = .error failure) :
    failure.kind ≠ .key := by
  match v with
  | .column [] => cases h; decide
  | .column (x :: y :: xs) => cases h; decide

/-! ## 3. Expressions -/

/-- **What code runs as comes out of it as `Passed` says.** -/
theorem Expression.RunsAs.passed {x : Expression} {t : Tree} (hx : x.RunsAs t)
    (hcode : x.source?.isSome = true) (b : Bindings) :
    Passed (x.evaluate b) (FormulaEvolution.evaluate (some t) b) ∧
      ∀ count, Passed (x.evaluateColumns b count)
        (FormulaEvolution.evaluateColumns (some t) b count) := by
  cases x with
  | interpreted u => cases hcode
  | compiled source code nodes =>
    have hpassed : Passed (Expression.runCode code nodes b) (t.value b) := (hx b).passed
    exact ⟨hpassed.bind Value.kind_toNumber, fun count => hpassed.bind fun v failure h => by cases h⟩

/-- **Compiling a tree keeps what it raises, but for missing keys**, for every tree of usual symbols
that passes the check, whatever its operations raise, and for all numbers.  Compiled code has a value
exactly where the tree has one, and the same.  Where the tree fails it fails, in the same class exactly
if the failure is no missing key, or if the text is nested too deeply and the tree stays as it is; a
missing key comes out as an evaluation fault.  All failures but those two come out unchanged. -/
theorem compile_failures {t : Tree} (hmade : t.Made) (hcheck : t.check = .ok ())
    (husual : ∀ u ∈ t.preorder, u.symbol.Usual Symbol.Scalar) :
    ∃ x, compile (some t) = .ok x ∧ ∀ d : Dictionary Float,
      (∀ y, x.evaluate (.ofNumbers d) = .ok y ↔ evaluate (some t) (.ofNumbers d) = .ok y) ∧
      ∀ failure, evaluate (some t) (.ofNumbers d) = .error failure →
        ∃ failure', x.evaluate (.ofNumbers d) = .error failure' ∧
          (failure'.kind = failure.kind ↔ failure.kind ≠ .key ∨ x.source? = none) ∧
          (failure.kind = .key → x.source?.isSome = true → failure'.kind = .evaluation) ∧
          (failure.kind ≠ .key → failure.kind ≠ .evaluation → failure' = failure) := by
  have hready : ∀ u ∈ t.preorder, u.Ready Symbol.Scalar := fun u hu =>
    ⟨hmade u hu, (t.check_eq_ok_iff.mp hcheck) u hu, husual u hu⟩
  obtain ⟨x, hx, hruns⟩ := compile_runsAs hready
  refine ⟨x, hx, fun d => ?_⟩
  cases hcode : x.source?.isSome with
  | false =>
    match x, hruns with
    | .interpreted _, rfl =>
      exact ⟨fun y => Iff.rfl, fun failure hfails => ⟨failure, hfails, iff_of_true rfl (.inr rfl),
        nofun, fun _ _ => rfl⟩⟩
  | true =>
    obtain ⟨hvalue, -⟩ := hruns.passed hcode (.ofNumbers d)
    refine ⟨hvalue.ok_iff, fun failure hfails => ?_⟩
    obtain ⟨failure', hfails', hkind, hkey, hother⟩ := hvalue.failure hfails
    have hsome : x.source? ≠ none := Option.isSome_iff_ne_none.mp hcode
    exact ⟨failure', hfails', by simp only [hkind, hsome, or_false], fun h _ => hkey h, hother⟩

/-- The symbol of an operation that misses a key. -/
def Symbol.forgetful : Symbol :=
  { Symbol.twice with
    name := "Forgetful"
    operation := some fun _ => .error (.absentKey "k") }

/-- An operation that misses a key, on a variable. -/
def Tree.forgetful : Tree := .node .forgetful [.variable (.forVariable "x")]

theorem Tree.forgetful_usual : Tree.forgetful.Made ∧ Tree.forgetful.check = .ok () ∧
    ∀ u ∈ Tree.forgetful.preorder, u.symbol.Usual Symbol.Scalar := by
  have hnodes : ∀ {P : Tree → Prop}, (∀ u ∈ Tree.forgetful.preorder, P u) ↔
      P .forgetful ∧ P (.variable (.forVariable "x")) := by
    intro P
    simp [Tree.forgetful, Tree.preorder, Tree.preorderAll]
  exact ⟨hnodes.mpr ⟨⟨rfl, rfl⟩, rfl⟩, rfl, hnodes.mpr
    ⟨.custom rfl rfl rfl fun _ _ => .inr ⟨_, rfl⟩, .input "x" ⟨by decide, by decide⟩⟩⟩

/-- The missing key of the operation comes out of the compiled tree as an evaluation fault. -/
theorem forgetful_failures : Tree.forgetful.Made ∧ Tree.forgetful.check = .ok () ∧
    (∀ u ∈ Tree.forgetful.preorder, u.symbol.Usual Symbol.Scalar) ∧
    ∃ x, compile (some .forgetful) = .ok x ∧
      evaluate (some .forgetful) (.ofNumbers [("x", 1.0)]) = .error (.absentKey "k") ∧
      ∃ failure', x.evaluate (.ofNumbers [("x", 1.0)]) = .error failure' ∧
        (failure'.kind = .key ↔ x.source? = none) := by
  obtain ⟨hmade, hcheck, husual⟩ := Tree.forgetful_usual
  obtain ⟨x, hx, hfailures⟩ := compile_failures hmade hcheck husual
  obtain ⟨failure', hfails', hkind, -⟩ := (hfailures [("x", 1.0)]).2 (.absentKey "k") rfl
  exact ⟨hmade, hcheck, husual, x, hx, rfl, failure', hfails', by simpa [Failure.kind] using hkind⟩

/-- What the tree is compiled to. -/
theorem compile_forgetful : compile (some .forgetful) =
    .ok (.compiled (nodeCallText 0 [(Symbol.variableText "x").toList]) (.node 0 [.input "x"])
      [.forgetful]) := by
  have hvariable := Symbol.emit_forVariable_iff.mpr
    ⟨"x", Symbol.key?_plain ⟨by decide, by decide⟩, rfl⟩
  have hwritten : Tree.forgetful.emit [] =
      .ok (nodeCallText 0 [(Symbol.variableText "x").toList], [.forgetful]) := by
    simp only [Tree.forgetful, Tree.emit.eq_3, Tree.emitAll, Tree.emit_variable, hvariable]
    rfl
  have htext := (phrase_node 0 (.single (phrase_input "x"))).ofText
  rw [if_pos (by decide)] at htext
  simp [compile, expectRoot, hwritten, htext, bind, Except.bind, pure, Except.pure]

/-- On the same number, the tree raises the missing key and what it is compiled to an evaluation
fault, which is of another class. -/
theorem forgetful_differs : ∃ x, compile (some .forgetful) = .ok x ∧
    x.evaluate [("x", .number 1.0)] = .error (.evaluation (.unboundKey "k")) ∧
    evaluate (some .forgetful) [("x", .number 1.0)] = .error (.absentKey "k") ∧
    (Failure.evaluation (.unboundKey "k")).kind ≠ (Failure.absentKey "k").kind :=
  ⟨_, compile_forgetful, rfl, rfl, by decide⟩

end FormulaEvolution
