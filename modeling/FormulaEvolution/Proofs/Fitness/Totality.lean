/-
# Scoring never fails

A strict evaluator that judges predictions gives every tree a fitness that is made of usual symbols
with total operations and reads inputs that the evaluator has (`Evaluator.fitness_of_scorable`), and
the settings of the evaluator make no difference to it (`Evaluator.fitness_eq_of_alike`).

Predictions are those of the single rows, a row binds every input to a number, and on numbers a tree
fails only with a variable that is not bound.
-/
import FormulaEvolution.Fitness.Score
import FormulaEvolution.Proofs.Code.Agreement
import FormulaEvolution.Proofs.Fitness.Prediction

namespace FormulaEvolution

/-! ## 1. Rows as numbers bound to names -/

namespace Dictionary

variable {β : Type} {d : Dictionary β}

theorem bindAll_cons (d : Dictionary β) (name : String) (names : List String) (value : β)
    (values : List β) : d.bindAll (name :: names) (value :: values) =
      (d.bind name value).bindAll names values := rfl

/-- Binding keeps names bound. -/
theorem isSome_value?_bind {name other : String} {value : β} (h : (d.value? other).isSome) :
    ((d.bind name value).value? other).isSome := by
  rw [value?_bind]
  split
  · rfl
  · exact h

theorem isSome_value?_bindAll {name : String} : ∀ {names : List String} {values : List β}
    {d : Dictionary β}, (d.value? name).isSome → ((d.bindAll names values).value? name).isSome
  | [], _, _, h => h
  | _ :: _, [], _, h => h
  | other :: names, value :: values, d, h => by
    rw [bindAll_cons]
    exact isSome_value?_bindAll (isSome_value?_bind h)

/-- **Names that are bound to as many values are all bound.** -/
theorem isSome_bindAll_of_mem {name : String} : ∀ {names : List String} {values : List β}
    {d : Dictionary β}, values.length = names.length → name ∈ names →
      ((d.bindAll names values).value? name).isSome
  | [], _, _, _, h => absurd h List.not_mem_nil
  | other :: names, [], _, hlength, _ => by simp at hlength
  | other :: names, value :: values, d, hlength, h => by
    rw [bindAll_cons]
    rcases List.mem_cons.mp h with rfl | h
    · exact isSome_value?_bindAll (by rw [value?_bind, if_pos rfl]; rfl)
    · exact isSome_bindAll_of_mem (by simpa using hlength) h

end Dictionary

theorem ofNumbers_bind (d : Dictionary Float) (name : String) (x : Float) :
    Bindings.ofNumbers (d.bind name x) = (Bindings.ofNumbers d).bind name (.number x) := by
  induction d with
  | nil => rfl
  | cons p d ih =>
    simp only [Bindings.ofNumbers, List.map_cons, Dictionary.bind] at ih ⊢
    split
    · rfl
    · rw [List.map_cons, ih]

theorem ofNumbers_bindAll : ∀ (names : List String) (xs : List Float) (d : Dictionary Float),
    Bindings.ofNumbers (d.bindAll names xs) =
      (Bindings.ofNumbers d).bindAll names (xs.map .number)
  | [], _, _ => rfl
  | _ :: _, [], _ => rfl
  | name :: names, x :: xs, d => by
    rw [Dictionary.bindAll_cons, ofNumbers_bindAll names xs, ofNumbers_bind]
    rfl

/-! ## 2. Trees that can be scored -/

/-- A tree that can be scored over some inputs. -/
structure Tree.Scorable (names : List String) (t : Tree) : Prop where
  ready : ∀ u ∈ t.preorder, u.Ready Symbol.Total
  inputs : ∀ u ∈ t.preorder, ∀ name, u.input? = some name → name ∈ names

/-- Inputs that are all bound leave no variable unbound. -/
theorem Tree.Scorable.firstUnbound {names : List String} {t : Tree} {d : Dictionary Float}
    (h : t.Scorable names) (hd : ∀ name ∈ names, (d.value? name).isSome) :
    t.firstUnbound d = none := by
  rw [Tree.firstUnbound, List.find?_eq_none]
  intro name hname
  obtain ⟨u, hu, hinput⟩ := List.mem_filterMap.mp hname
  have hbound := hd name (h.inputs u hu name hinput)
  rw [Option.isSome_iff_ne_none] at hbound
  simpa using hbound

/-- What predictions are judged by, with nothing left to others. -/
def Goal.JudgesPredictions : Goal → Prop
  | .regression => True
  | .classification => True
  | .smooth _ => True
  | .custom .. => False
  | .abstract => False

namespace Evaluator

variable {e : Evaluator} {t : Tree}

/-- On each of the rows the tree has a value. -/
theorem evaluate_of_scorable (h : t.Scorable e.names) {row : List Float} (hrow : row ∈ e.rows) :
    ∃ y, evaluate (some t) (e.bindRow row) = .ok y := by
  have hnumbers : e.bindRow row = .ofNumbers (Dictionary.bindAll [] e.names row) :=
    (ofNumbers_bindAll e.names row []).symm
  have hvalue := Tree.value_outcome (d := Dictionary.bindAll [] e.names row)
    fun u hu => (h.ready u hu).regular
  rw [h.firstUnbound fun name hname => Dictionary.isSome_bindAll_of_mem (e.width row hrow) hname]
    at hvalue
  obtain ⟨_, hvalue, y, rfl⟩ := hvalue
  exact ⟨y, by rw [hnumbers, evaluate_eq hvalue]⟩

/-- The nodes of a tree that can be scored are ready for predictions. -/
theorem ready_of_scorable {names : List String} (h : t.Scorable names) :
    ∀ u ∈ t.preorder, u.Ready Symbol.Scalar := fun u hu =>
  ⟨(h.ready u hu).sorted, (h.ready u hu).accepts,
    (h.ready u hu).usual.mono fun _ => Symbol.Total.scalar⟩

/-- **Predicting never fails.** -/
theorem predict_of_scorable (hstrict : e.settings.lenient = false) (h : t.Scorable e.names)
    (pool : ScratchPool Value) : ∃ ys, (e.predict (some t) pool).1 = .ok ys := by
  have hpredicts := predict_rowByRow hstrict (ready_of_scorable h) pool
  cases hresult : (e.predict (some t) pool).1 with
  | ok ys => exact ⟨ys, rfl⟩
  | error failure =>
    obtain ⟨row, hrow, failure', hfails⟩ := hpredicts.error_iff.mp ⟨failure, hresult⟩
    obtain ⟨y, hy⟩ := evaluate_of_scorable h hrow
    rw [hy] at hfails
    cases hfails

/-- The fitness of a tree is that of its predictions. -/
theorem fitness_eq_scoreOf (hgoal : e.goal.JudgesPredictions) {ys : List Float}
    (hys : (e.predict (some t) .usual).1 = .ok ys) :
    e.fitness (some t) = e.scoreOf (some t) ys := by
  unfold fitness score
  cases hkind : e.goal with
  | custom name score => rw [hkind] at hgoal; exact hgoal.elim
  | abstract => rw [hkind] at hgoal; exact hgoal.elim
  | regression => simp only [afterPredicting, hys]; rfl
  | classification => simp only [afterPredicting, hys]; rfl
  | smooth pressure => simp only [afterPredicting, hys]; rfl

/-- **Scoring never fails.** -/
theorem fitness_of_scorable (hstrict : e.settings.lenient = false)
    (hgoal : e.goal.JudgesPredictions) (h : t.Scorable e.names) :
    ∃ fitness, e.fitness (some t) = .ok fitness := by
  obtain ⟨ys, hys⟩ := predict_of_scorable hstrict h .usual
  rw [fitness_eq_scoreOf hgoal hys]
  unfold scoreOf
  cases hkind : e.goal with
  | custom name score => rw [hkind] at hgoal; exact hgoal.elim
  | abstract => rw [hkind] at hgoal; exact hgoal.elim
  | regression => exact ⟨_, rfl⟩
  | classification => exact ⟨_, rfl⟩
  | smooth pressure => exact ⟨_, rfl⟩

/-- Two evaluators over the same data with the same goal, whatever their settings. -/
structure Alike (e e' : Evaluator) : Prop where
  names : e'.names = e.names
  rows : e'.rows = e.rows
  targets : e'.targets = e.targets
  goal : e'.goal = e.goal

/-- **Strict evaluators over the same data agree on a tree**: neither whether trees are compiled nor
how the rows are cut into chunks shows in a fitness. -/
theorem fitness_eq_of_alike {e' : Evaluator} (halike : e.Alike e')
    (hstrict : e.settings.lenient = false) (hstrict' : e'.settings.lenient = false)
    (hgoal : e.goal.JudgesPredictions) (h : t.Scorable e.names) :
    e'.fitness (some t) = e.fitness (some t) := by
  obtain ⟨ys, hys⟩ := predict_of_scorable hstrict h .usual
  have hready := ready_of_scorable h
  have hbind : e'.bindRow = e.bindRow := by
    funext row
    rw [bindRow, bindRow, halike.names]
  have hpredicts' := predict_rowByRow hstrict' hready .usual
  rw [Predicts, halike.rows, hbind] at hpredicts'
  have hys' : (e'.predict (some t) .usual).1 = .ok ys :=
    hpredicts'.ok_iff.mpr ((predict_rowByRow hstrict hready .usual).ok_iff.mp hys)
  rw [fitness_eq_scoreOf hgoal hys, fitness_eq_scoreOf (halike.goal ▸ hgoal) hys']
  simp only [scoreOf, halike.goal, halike.targets]

end Evaluator
end FormulaEvolution
