/-
# Usual symbols

The symbols that trees are usually made of: the standard symbols, those of constants and variables,
and symbols without a template whose operations take numbers to numbers or fail (`Symbol.Usual`).

On numbers, as many as it accepts, a standard symbol never fails (`total_of_standard`).
-/
import FormulaEvolution.Compilation
import FormulaEvolution.Proofs.Text.Quoting
import FormulaEvolution.Symbol.Standard

namespace FormulaEvolution

/-! ## 1. Kernels -/

namespace Kernel

/-- A count of arguments that a kernel takes. -/
def Takes (k : Kernel) (count : Nat) : Prop :=
  (Symbol.boundsOf k).1 ≤ count ∧ count ≤ (Symbol.boundsOf k).2

/-- A kernel on as many children as it takes is the kernel on values. -/
theorem runOnChildren_eq {k : Kernel} {vs : List Value} (h : k.Takes vs.length) :
    k.runOnChildren vs = k.run vs := by
  cases hk : k.arity? with
  | none => simp only [runOnChildren, hk]
  | some n =>
    simp only [Takes, Symbol.boundsOf, hk] at h
    obtain rfl : vs.length = n := Nat.le_antisymm h.2 h.1
    simp only [runOnChildren, hk, Nat.lt_irrefl, if_false, List.take_length]

/-- A kernel on as many values as it takes works row by row. -/
theorem run_eq_lift {k : Kernel} {vs : List Value} (h : k.Takes vs.length) :
    k.run vs = Value.lift k.apply vs := by
  cases hk : k.arity? with
  | none =>
    have hne : vs ≠ [] := by
      rintro rfl
      simp [Takes, Symbol.boundsOf, hk] at h
    simp only [run, hk, hne, if_false]
  | some n =>
    simp only [Takes, Symbol.boundsOf, hk] at h
    simp only [run, hk, Nat.le_antisymm h.2 h.1, if_true]

end Kernel

/-! ## 2. Standard symbols -/

/-- The sign that an operation of arithmetic is written as. -/
def Arithmetic.sign : Arithmetic → Sign
  | .addition => .plus
  | .subtraction => .minus
  | .multiplication => .times

/-- The mark of that sign. -/
def Arithmetic.mark : Arithmetic → Char
  | .addition => '+'
  | .subtraction => '-'
  | .multiplication => '*'

theorem Arithmetic.sign_mark (a : Arithmetic) :
    Code.sumSign? a.mark = some a.sign ∨ Code.productSign? a.mark = some a.sign := by
  cases a <;> decide

theorem Arithmetic.kernel_eq (a : Arithmetic) : a.kernel = .binary a.sign.apply := by
  cases a <;> rfl

namespace Symbol

/-- A symbol of a primitive: it is written as a call of it. -/
def OfPrimitive (s : Symbol) (p : Primitive) : Prop :=
  s.operation = some p.kernel.runOnChildren ∧ s.template = some (.call p.shortName) ∧
    s.least = (boundsOf p.kernel).1 ∧ s.most = (boundsOf p.kernel).2

/-- A symbol of an operation of arithmetic: its template has the sign between two fields. -/
def OfArithmetic (s : Symbol) (a : Arithmetic) : Prop :=
  s.operation = some a.kernel.runOnChildren ∧
    (∃ template : String, s.template = some (.text template) ∧ template.toList =
      ['(', '\x7b', '0', '\x7d', ' ', a.mark, ' ', '\x7b', '1', '\x7d', ')']) ∧
      s.least = 2 ∧ s.most = 2

theorem ofPrimitive_ofPrimitive (name : String) (p : Primitive) (description : String) :
    (ofPrimitive name p description).OfPrimitive p := ⟨rfl, rfl, rfl, rfl⟩

theorem ofArithmetic_ofArithmetic (name : String) (a : Arithmetic) {template : String}
    (description : String)
    (h : template.toList = ['(', '\x7b', '0', '\x7d', ' ', a.mark, ' ', '\x7b', '1', '\x7d', ')']) :
    (ofArithmetic name a template description).OfArithmetic a := by
  have hbounds : boundsOf a.kernel = (2, 2) := by cases a <;> rfl
  exact ⟨rfl, ⟨template, rfl, h⟩, congrArg Prod.fst hbounds, congrArg Prod.snd hbounds⟩

theorem OfArithmetic.isCompilable {s : Symbol} {a : Arithmetic} (h : s.OfArithmetic a) :
    s.isCompilable = true := by
  obtain ⟨-, ⟨template, htemplate, -⟩, -, -⟩ := h
  rw [Symbol.isCompilable, htemplate, Option.isSome_some]

/-- The sign is put between the first two children; with fewer nothing is written. -/
theorem OfArithmetic.emit_iff {s : Symbol} {a : Arithmetic} (h : s.OfArithmetic a)
    {args : List (List Char)} {text : List Char} : s.emit args = .ok text ↔
      ∃ x y rest, args = x :: y :: rest ∧
        text = '(' :: (x ++ ' ' :: a.mark :: ' ' :: (y ++ [')'])) := by
  obtain ⟨-, ⟨template, htemplate, hchars⟩, -, -⟩ := h
  have hplain : a.mark ≠ '\x7b' ∧ a.mark ≠ '\x7d' := by cases a <;> decide
  simp only [emit, htemplate, hchars, Text.Template.fill_sign hplain.1 hplain.2]
  match args with
  | [] => exact ⟨nofun, nofun⟩
  | [x] => exact ⟨nofun, nofun⟩
  | x :: y :: rest =>
    constructor
    · rintro ⟨⟩
      exact ⟨x, y, rest, rfl, rfl⟩
    · rintro ⟨_, _, _, ⟨⟩, rfl⟩
      rfl

/-- **A standard symbol is a symbol of a primitive or of an operation of arithmetic.** -/
theorem standard_cases {s : Symbol} (h : s ∈ standardSymbols) :
    s.kind = none ∧ ((∃ p, s.OfPrimitive p) ∨ ∃ a, s.OfArithmetic a) := by
  simp only [standardSymbols, SymbolSet.all, List.mem_flatMap, List.mem_cons, List.not_mem_nil,
    or_false] at h
  obtain ⟨set, hset, hs⟩ := h
  rcases hset with rfl | rfl | rfl | rfl | rfl | rfl | rfl | rfl <;>
    simp only [SymbolSet.symbols, Symbol.basicSet, Symbol.extendedSet, Symbol.advancedSet,
      Symbol.trigonometricSet, Symbol.comparisonSet, Symbol.boundingSet, Symbol.ratioSet,
      Symbol.statisticsSet, List.mem_cons, List.not_mem_nil, or_false] at hs <;>
    rcases hs with rfl | rfl | rfl | rfl | rfl <;>
    refine ⟨rfl, ?_⟩ <;>
    first
      | exact .inl ⟨_, ofPrimitive_ofPrimitive _ _ _⟩
      | exact .inr ⟨_, ofArithmetic_ofArithmetic _ _ _ (by decide)⟩

/-! ## 3. Usual symbols -/

/-- The operation takes numbers, as many as the symbol accepts, to a number or fails. -/
def Scalar (s : Symbol) : Prop := ∀ xs : List Float, s.accepts xs.length = true →
  (∃ y, s.evaluate (xs.map .number) = .ok (.number y)) ∨
    ∃ failure, s.evaluate (xs.map .number) = .error failure

/-- The operation takes numbers, as many as the symbol accepts, to a number. -/
def Total (s : Symbol) : Prop := ∀ xs : List Float, s.accepts xs.length = true →
  ∃ y, s.evaluate (xs.map .number) = .ok (.number y)

/-- A usual symbol: a standard one, one of constants, one of a variable whose name has no braces, or
one that is not compilable and has an operation of some quality. -/
inductive Usual (Quality : Symbol → Prop) : Symbol → Prop
  | standard {s : Symbol} : s ∈ standardSymbols → Usual Quality s
  | fixed (name : String) (range : Float × Float) : Usual Quality (forConstant name range)
  | input (name : String) : Text.Quoted.Plain name.toList → Usual Quality (forVariable name)
  | custom {s : Symbol} : s.kind = none → s.isFunctional = true → s.isCompilable = false →
      Quality s → Usual Quality s

/-- A usual symbol, or one of a variable whatever its name. -/
def Common (Quality : Symbol → Prop) (s : Symbol) : Prop :=
  s.Usual Quality ∨ ∃ name, s = forVariable name

theorem Usual.mono {Q R : Symbol → Prop} {s : Symbol} (h : s.Usual Q) (hQR : ∀ s, Q s → R s) :
    s.Usual R := by
  cases h with
  | standard hs => exact .standard hs
  | fixed name range => exact .fixed name range
  | input name hname => exact .input name hname
  | custom hkind hop hnot hquality => exact .custom hkind hop hnot (hQR _ hquality)

theorem Total.scalar {s : Symbol} (h : s.Total) : s.Scalar := fun xs hxs => .inl (h xs hxs)

/-- A symbol with a kernel takes numbers to the number that the kernel gives. -/
theorem evaluate_kernel {s : Symbol} {k : Kernel} (hop : s.operation = some k.runOnChildren)
    {xs : List Float} (hxs : k.Takes xs.length) :
    s.evaluate (xs.map .number) = .ok (.number (k.apply xs)) := by
  have htakes : k.Takes (xs.map Value.number).length := by rwa [List.length_map]
  simp only [evaluate, hop, Kernel.runOnChildren_eq htakes, Kernel.run_eq_lift htakes,
    Value.lift_numbers]

theorem OfPrimitive.takes {s : Symbol} {p : Primitive} (h : s.OfPrimitive p) {count : Nat}
    (haccepts : s.accepts count = true) : p.kernel.Takes count := by
  rwa [accepts_iff, h.2.2.1, h.2.2.2] at haccepts

theorem OfArithmetic.takes {s : Symbol} {a : Arithmetic} (h : s.OfArithmetic a) {count : Nat}
    (haccepts : s.accepts count = true) : count = 2 ∧ a.kernel.Takes count := by
  rw [accepts_iff, h.2.2.1, h.2.2.2] at haccepts
  obtain rfl : count = 2 := by omega
  refine ⟨rfl, ?_⟩
  cases a <;> exact ⟨Nat.le_refl 2, Nat.le_refl 2⟩

/-- **Standard symbols never fail on numbers.** -/
theorem total_of_standard {s : Symbol} (h : s ∈ standardSymbols) : s.Total := by
  intro xs hxs
  rcases (standard_cases h).2 with ⟨p, hp⟩ | ⟨a, ha⟩
  · exact ⟨_, evaluate_kernel hp.1 (hp.takes hxs)⟩
  · exact ⟨_, evaluate_kernel ha.1 (ha.takes hxs).2⟩

end Symbol
end FormulaEvolution
