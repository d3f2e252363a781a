/-
# Compiled expressions and trees agree

On numbers, a tree of usual symbols whose operations never fail has a value unless a variable is not
bound, and then it fails with the first such variable from left to right
(`Tree.value_outcome`).  So does what the tree is compiled to (`compile_agrees`).
-/
import FormulaEvolution.Proofs.Code.Translation

namespace FormulaEvolution

/-! ## 1. Numbers bound to names -/

/-- Variables that are bound to numbers. -/
def Bindings.ofNumbers (d : Dictionary Float) : Bindings := d.map fun p => (p.1, .number p.2)

theorem value?_ofNumbers (d : Dictionary Float) (name : String) :
    (Bindings.ofNumbers d).value? name = (d.value? name).map .number := by
  simp [Bindings.ofNumbers, Dictionary.value?, List.find?_map, Function.comp_def]

namespace Tree

/-- The name that a node looks up. -/
def input? : Tree → Option String
  | .variable s => some s.name
  | _ => none

/-- The first variable, from left to right, that is not bound. -/
def firstUnbound (d : Dictionary Float) (t : Tree) : Option String :=
  (t.preorder.filterMap input?).find? fun name => (d.value? name).isNone

/-! ## 2. Values on numbers -/

/-- On numbers, a node with an operation has the value that its symbol gives. -/
theorem combine_numbers {b : Bindings} {s : Symbol} {cs : List Tree} (h : s.isFunctional = true)
    (xs : List Float) :
    combine b (.node s cs) (xs.map .number) = s.evaluate (xs.map .number) := by
  have hlengths : Value.lengths (xs.map .number) = [] := by
    simp [Value.lengths, List.filterMap_map, Function.comp_def, Value.length?]
  simp [combine, nodeValueByRow, hlengths, nodeValue, h]

/-- A node with a total operation has a value on as many numbers as it has children. -/
theorem Regular.total {s : Symbol} {cs : List Tree} (h : Regular Symbol.Total (.node s cs)) :
    s.isFunctional = true ∧ s.Total := by
  rcases h.node_cases with hs | ⟨hfunctional, -, htotal⟩
  · exact ⟨(standardSymbols_complete hs).1, Symbol.total_of_standard hs⟩
  · exact ⟨hfunctional, htotal⟩

/-- The outcome of evaluating some trees, given the first variable that is not bound. -/
def Outcome {α : Type} (unbound : Option String) (good : α → Prop) (result : Except Failure α) :
    Prop :=
  match unbound with
  | none => ∃ a, result = .ok a ∧ good a
  | some name => result = .error (.evaluation (.unboundVariable name))

section Values

variable {d : Dictionary Float}

mutual

/-- **A tree has a value unless a variable is not bound, and fails with the first such variable.** -/
theorem value_outcome : ∀ {t : Tree}, (∀ u ∈ t.preorder, u.Regular Symbol.Total) →
    Outcome (t.firstUnbound d) (fun v => ∃ y, v = .number y) (t.value (.ofNumbers d))
  | .constant s v, _ => by
    simp only [firstUnbound, preorder, List.filterMap_cons, input?, List.filterMap_nil,
      List.find?_nil, Outcome]
    exact ⟨.number v, rfl, v, rfl⟩
  | .variable s, _ => by
    simp only [firstUnbound, preorder, List.filterMap_cons, input?, List.filterMap_nil]
    have hbinding := value?_ofNumbers d s.name
    cases hlookup : d.value? s.name with
    | none =>
      rw [hlookup] at hbinding
      simp [hlookup, Outcome, value_unbound hbinding]
    | some y =>
      rw [hlookup] at hbinding
      simp [hlookup, Outcome, value_bound hbinding]
  | .node s cs, h => by
    have hall := values_outcome fun c hc u hu =>
      h u (by rw [preorder]; exact List.mem_cons_of_mem _ (mem_preorderAll.mpr ⟨c, hc, hu⟩))
    have hregular := h (.node s cs) (by simp [preorder])
    obtain ⟨hfunctional, htotal⟩ := hregular.total
    have hunbound : (Tree.node s cs).firstUnbound d =
        ((preorderAll cs).filterMap input?).find? fun name => (d.value? name).isNone := by
      simp only [firstUnbound, preorder, List.filterMap_cons, input?]
    rw [hunbound, value_eq]
    cases hfirst : ((preorderAll cs).filterMap input?).find? fun name => (d.value? name).isNone with
    | none =>
      rw [hfirst] at hall
      obtain ⟨vs, hvs, xs, rfl, hcount⟩ := hall
      obtain ⟨y, hy⟩ := htotal xs (by rw [hcount]; exact hregular.accepts)
      refine ⟨.number y, ?_, y, rfl⟩
      rw [children, hvs]
      exact (combine_numbers hfunctional xs).trans hy
    | some name =>
      rw [hfirst] at hall
      have hfails : values (.ofNumbers d) cs = _ := hall
      rw [children, hfails]
      rfl

theorem values_outcome : ∀ {cs : List Tree}, (∀ c ∈ cs, ∀ u ∈ c.preorder, u.Regular Symbol.Total) →
    Outcome (((preorderAll cs).filterMap input?).find? fun name => (d.value? name).isNone)
      (fun vs => ∃ xs : List Float, vs = xs.map .number ∧ xs.length = cs.length)
      (values (.ofNumbers d) cs)
  | [], _ => ⟨[], rfl, [], rfl, rfl⟩
  | c :: cs, h => by
    have hc := value_outcome (h c List.mem_cons_self)
    have hcs := values_outcome fun e he => h e (List.mem_cons_of_mem c he)
    rw [preorderAll, List.filterMap_append, List.find?_append, values]
    rw [firstUnbound] at hc
    cases hfirst : (c.preorder.filterMap input?).find? fun name => (d.value? name).isNone with
    | some name =>
      rw [hfirst] at hc
      have hfails : value (.ofNumbers d) c = _ := hc
      rw [hfails]
      rfl
    | none =>
      rw [hfirst] at hc
      obtain ⟨_, hv, y, rfl⟩ := hc
      rw [hv, Option.none_or]
      cases hrest : ((preorderAll cs).filterMap input?).find? fun name =>
          (d.value? name).isNone with
      | some name =>
        rw [hrest] at hcs
        have hfails : values (.ofNumbers d) cs = _ := hcs
        rw [hfails]
        rfl
      | none =>
        rw [hrest] at hcs
        obtain ⟨vs, hvs, xs, rfl, hcount⟩ := hcs
        rw [hvs]
        exact ⟨_, rfl, y :: xs, rfl, by rw [List.length_cons, List.length_cons, hcount]⟩

end

end Values

end Tree

/-! ## 3. Agreement -/

/-- Two outcomes agree, given the first variable that is not bound: on a value if there is none, and
on failing with its name if there is one. -/
def Agree {α : Type} (unbound : Option String) (first second : Except Failure α) : Prop :=
  match unbound with
  | none => ∃ a, first = .ok a ∧ second = .ok a
  | some name => FailsFor name first ∧ FailsFor name second

/-- An expression that runs as a tree evaluates as the tree does. -/
theorem Expression.RunsAs.agrees {x : Expression} {t : Tree} (hx : x.RunsAs t)
    (h : ∀ u ∈ t.preorder, u.Regular Symbol.Total) (d : Dictionary Float) :
    Agree (t.firstUnbound d) (x.evaluate (.ofNumbers d))
      (FormulaEvolution.evaluate (some t) (.ofNumbers d)) := by
  have hvalue := Tree.value_outcome (d := d) h
  obtain ⟨result, hx, -, hexplains⟩ := hx.outcome (.ofNumbers d)
  have htree : FormulaEvolution.evaluate (some t) (.ofNumbers d) =
      t.value (.ofNumbers d) >>= Value.toNumber := rfl
  rw [hx, htree]
  cases hfirst : t.firstUnbound d with
  | none =>
    rw [hfirst] at hvalue
    obtain ⟨_, hvalue, y, rfl⟩ := hvalue
    rw [hvalue] at hexplains ⊢
    cases hexplains
    exact ⟨y, rfl, rfl⟩
  | some name =>
    rw [hfirst] at hvalue
    have hfails : t.value (.ofNumbers d) = .error (.evaluation (.unboundVariable name)) := hvalue
    rw [hfails] at hexplains ⊢
    cases hexplains with
    | failure hname =>
      obtain ⟨fault, hfault, hsymbol⟩ := hname name rfl
      cases hfault
      exact ⟨⟨fault, rfl, hsymbol⟩, .unboundVariable name, rfl, rfl⟩

/-- **Compiling a tree and evaluating it agree**, for every tree of usual symbols with total
operations that passes the check: under all numbers, both give the same value, or both fail with the
name of the first variable that is not bound. -/
theorem compile_agrees {t : Tree} (hmade : t.Made) (hcheck : t.check = .ok ())
    (husual : ∀ u ∈ t.preorder, u.symbol.Usual Symbol.Total) :
    ∃ x, compile (some t) = .ok x ∧ ∀ d : Dictionary Float,
      Agree (t.firstUnbound d) (x.evaluate (.ofNumbers d)) (evaluate (some t) (.ofNumbers d)) := by
  have hready : ∀ u ∈ t.preorder, u.Ready Symbol.Total := fun u hu =>
    ⟨hmade u hu, (t.check_eq_ok_iff.mp hcheck) u hu, husual u hu⟩
  obtain ⟨x, hx, hruns⟩ := compile_runsAs hready
  exact ⟨x, hx, fun d => hruns.agrees (fun u hu => (hready u hu).regular) d⟩

/-- The small tree agrees with what it is compiled to: on a value where its variable is bound, and on
the name of the variable where it is not. -/
theorem small_agrees : Tree.small.Made ∧ Tree.small.check = .ok () ∧
    (∀ u ∈ Tree.small.preorder, u.symbol.Usual Symbol.Total) ∧
    ∃ x, compile (some .small) = .ok x ∧
      (∃ y, x.evaluate (.ofNumbers [("x", 1.0)]) = .ok y ∧
        evaluate (some .small) (.ofNumbers [("x", 1.0)]) = .ok y) ∧
      FailsFor "x" (x.evaluate (.ofNumbers [])) ∧
      FailsFor "x" (evaluate (some .small) (.ofNumbers [])) := by
  obtain ⟨hmade, hcheck, husual⟩ := Tree.small_usual Symbol.total_twice
  obtain ⟨x, hx, hagrees⟩ := compile_agrees hmade hcheck husual
  exact ⟨hmade, hcheck, husual, x, hx, hagrees [("x", 1.0)], hagrees []⟩

end FormulaEvolution
