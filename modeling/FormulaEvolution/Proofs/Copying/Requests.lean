/-
# Requests for copies

What happens while an object is copied, whatever objects the graph has: they may register late, they
may not be copied at all, and the copying may break off.

`Performed` tells it as a relation, one rule for each thing that can happen, with a log of all
requests, also of those made while references are copied.  It is exactly what the copier does
(`performed_iff`).  A request begins a copy, finds the one that is registered, or is refused; one
that begins a copy has a course, the objects asked for while the references of its object are copied.

Whatever is performed, copies are numbered in the order in which they are begun
(`Performed.numbered`), the registry grows at its end, and only copies that were begun are
registered, each for its own object (`Performed.mem_registry`).  The same holds of a pass, in which
one object is copied after the other (`Pass`).
-/
import FormulaEvolution.Proofs.Copying

namespace FormulaEvolution
namespace Copier

/-! ## 1. Requests -/

/-- A request for the copy of an object.  The registered copy is found; or a copy is begun, in the
course of which other objects are asked for, and which may break off; or the request is refused. -/
inductive Request where
  | found (i : ObjectId) (j : CopyId)
  | begun (i : ObjectId) (j : CopyId) (course : List ObjectId) (failure? : Option Failure)
  | refused (i : ObjectId) (failure : Failure)

namespace Request

/-- The object asked for. -/
def origin : Request → ObjectId
  | found i _ => i
  | begun i _ _ _ => i
  | refused i _ => i

/-- The copy that the request is answered with, unless it fails. -/
def answer? : Request → Option CopyId
  | found _ j => some j
  | begun _ j _ none => some j
  | begun _ _ _ (some _) => none
  | refused _ _ => none

/-- The object that a copy is begun of. -/
def begins? : Request → Option ObjectId
  | begun i _ _ _ => some i
  | _ => none

end Request

/-- The objects that copies are begun of, in the order of the copies. -/
def origins (log : List Request) : List ObjectId := log.filterMap Request.begins?

/-- Something for a copier to do: to copy what one reference leads to, or to give a copy the copies
of several references. -/
inductive Task where
  | one (r : Option ObjectId)
  | all (j : CopyId) (references : List (Option ObjectId))

/-- Do what is to be done. -/
def Task.perform (graph : Graph) (bound : Nat) : Task → Copying (Option CopyId)
  | one r => copyWithin graph bound r
  | all j references => do
    copyReferences (copyWithin graph bound) j references
    return none

/-- An object that a task is about. -/
def Task.Targets (graph : Graph) : Task → ObjectId → Prop
  | one r, k => target? graph r = some k
  | all _ references, k => ∃ r ∈ references, target? graph r = some k

/-- An object that registers its copy after its references have been copied. -/
def IsLate (graph : Graph) (i : ObjectId) : Prop :=
  ∃ label references, graph.getD i .missing = .object label references true

section Objects

variable {graph : Graph} {i : ObjectId} {label : String} {references : List (Option ObjectId)}
  {late : Bool}

theorem target?_object (hpart : graph.getD i .missing = .object label references late) :
    target? graph (some i) = some i :=
  target?_some (by rw [hpart]; exact nofun)

theorem isEarly_iff (hpart : graph.getD i .missing = .object label references late) :
    IsEarly graph i ↔ late = false := by
  constructor
  · rintro ⟨label', references', hpart'⟩
    rw [hpart] at hpart'
    cases hpart'
    rfl
  · rintro rfl
    exact ⟨label, references, hpart⟩

end Objects

/-! ## 2. The registry of a copier at work -/

/-- A copy has been started: it has no references yet, and is registered unless its object is
late. -/
def started (c : Copier) (i : ObjectId) (label : String) (late : Bool) : Copier :=
  ⟨c.made ++ [⟨label, []⟩], if late then c.registry else c.registry ++ [(i, c.made.length)]⟩

/-- A copy has got all its references: it is registered, unless another one has been. -/
def settled (c : Copier) (i : ObjectId) (j : CopyId) : Copier :=
  if c.registered? i = none then ⟨c.made, c.registry ++ [(i, j)]⟩ else c

section Registry

variable {c c' : Copier} {i k : ObjectId} {j : CopyId} {label : String} {late : Bool}

theorem registered?_concat (made : List Copy) (c : Copier) (i : ObjectId) (j : CopyId)
    (k : ObjectId) : (Copier.mk made (c.registry ++ [(i, j)])).registered? k =
      (c.registered? k).or (if i = k then some j else none) := by
  simp only [registered?, List.find?_append, List.find?_singleton, decide_eq_true_eq]
  cases c.registry.find? fun p => decide (p.1 = k) with
  | some p => rfl
  | none => split <;> rfl

theorem registry_started (c : Copier) (i : ObjectId) (label : String) (late : Bool) :
    c.registry <+: (c.started i label late).registry := by
  rw [started]
  split
  · exact List.prefix_rfl
  · exact List.prefix_append _ _

theorem registry_settled (c : Copier) (i : ObjectId) (j : CopyId) :
    c.registry <+: (c.settled i j).registry := by
  rw [settled]
  split
  · exact List.prefix_append _ _
  · exact List.prefix_rfl

theorem made_settled (c : Copier) (i : ObjectId) (j : CopyId) : (c.settled i j).made = c.made := by
  rw [settled]
  split <;> rfl

theorem length_made_started (c : Copier) (i : ObjectId) (label : String) (late : Bool) :
    (c.started i label late).made.length = c.made.length + 1 := by
  rw [started, List.length_append, List.length_singleton]

theorem registered?_started_early (hnew : c.registered? i = none) :
    (c.started i label false).registered? i = some c.made.length := by
  rw [started, if_neg Bool.false_ne_true, registered?_concat, hnew, if_pos rfl, Option.none_or]

/-- A copy that has got all its references is registered, or another one is. -/
theorem registered?_settled_self (c : Copier) (i : ObjectId) (j : CopyId) :
    (c.settled i j).registered? i = some ((c.registered? i).getD j) := by
  rw [settled]
  cases hi : c.registered? i with
  | none => rw [if_pos rfl, registered?_concat, hi, if_pos rfl, Option.none_or, Option.getD_none]
  | some j' => rw [if_neg (by simp), hi, Option.getD_some]

/-- Objects that are not registered in the end have not been before. -/
theorem registered?_eq_none_of_isPrefix (h : c.registry <+: c'.registry)
    (hi : c'.registered? i = none) : c.registered? i = none := by
  cases hj : c.registered? i with
  | none => rfl
  | some j => rw [registered?_of_isPrefix h hj] at hi; cases hi

end Registry

/-! ## 3. What is performed -/

/-- What a copier may do with a task within a bound on the objects of a path: the requests that are
made, in the order in which they are made, how the task ends, and the copier afterwards. -/
inductive Performed (graph : Graph) :
    Nat → Task → Copier → List Request → Except Failure (Option CopyId) → Copier → Prop
  | absent {bound c r} : target? graph r = none → Performed graph bound (.one r) c [] (.ok none) c
  | found {bound c i j} : target? graph (some i) = some i → c.registered? i = some j →
      Performed graph bound (.one (some i)) c [.found i j] (.ok (some j)) c
  | refused {bound c i typeName} : graph.getD i .missing = .fixed typeName →
      c.registered? i = none → Performed graph bound (.one (some i)) c
        [.refused i (.uncopyable typeName)] (.error (.uncopyable typeName)) c
  | endless {c i label references late} : graph.getD i .missing = .object label references late →
      c.registered? i = none →
        Performed graph 0 (.one (some i)) c [.refused i .endless] (.error .endless) c
  | copied {bound c c' i label references late log} :
      graph.getD i .missing = .object label references late → c.registered? i = none →
      Performed graph bound (.all c.made.length references) (c.started i label late) log
        (.ok none) c' →
          Performed graph (bound + 1) (.one (some i)) c
            (.begun i c.made.length (log.map (·.origin)) none :: log) (.ok (some c.made.length))
            (c'.settled i c.made.length)
  | broken {bound c c' i label references late log failure} :
      graph.getD i .missing = .object label references late → c.registered? i = none →
      Performed graph bound (.all c.made.length references) (c.started i label late) log
        (.error failure) c' →
          Performed graph (bound + 1) (.one (some i)) c
            (.begun i c.made.length (log.map (·.origin)) (some failure) :: log) (.error failure) c'
  | done {bound j c} : Performed graph bound (.all j []) c [] (.ok none) c
  | next {bound j r references c c₁ c' copy log log' result} :
      Performed graph bound (.one r) c log (.ok copy) c₁ →
      Performed graph bound (.all j references) (c₁.refer j copy) log' result c' →
        Performed graph bound (.all j (r :: references)) c (log ++ log') result c'
  | stopped {bound j r references c c' log failure} :
      Performed graph bound (.one r) c log (.error failure) c' →
        Performed graph bound (.all j (r :: references)) c log (.error failure) c'

section Exactly

variable {graph : Graph} {bound : Nat} {c c' : Copier} {i : ObjectId} {j : CopyId}

theorem run_copyWithin_fixed {typeName : String} (hpart : graph.getD i .missing = .fixed typeName)
    (hnew : c.registered? i = none) :
    (copyWithin graph bound (some i)).run c = (.error (.uncopyable typeName), c) := by
  cases bound <;> simp only [copyWithin, hpart, run_get_bind, hnew] <;> rfl

theorem run_copyWithin_zero {label : String} {references : List (Option ObjectId)} {late : Bool}
    (hpart : graph.getD i .missing = .object label references late)
    (hnew : c.registered? i = none) :
    (copyWithin graph 0 (some i)).run c = (.error .endless, c) := by
  simp only [copyWithin, hpart, run_get_bind, hnew]
  rfl

theorem run_all (references : List (Option ObjectId)) :
    ((Task.all j references).perform graph bound).run c =
      match (copyReferences (copyWithin graph bound) j references).run c with
      | (.ok _, c') => (.ok none, c')
      | (.error failure, c') => (.error failure, c') := by
  rw [Task.perform, run_bind]
  rcases (copyReferences (copyWithin graph bound) j references).run c with ⟨failure | ⟨⟩, c'⟩
  · rfl
  · rfl

/-- An object that is not registered gets a copy: it is started, given its references, and settled
unless these fail. -/
theorem run_copyWithin_object {label : String} {references : List (Option ObjectId)} {late : Bool}
    (hpart : graph.getD i .missing = .object label references late)
    (hnew : c.registered? i = none) :
    (copyWithin graph (bound + 1) (some i)).run c =
      match ((Task.all c.made.length references).perform graph bound).run
          (c.started i label late) with
      | (.ok _, c') => (.ok (some c.made.length), c'.settled i c.made.length)
      | (.error failure, c') => (.error failure, c') := by
  have hstarted : (if late then (c.addShell label).2 else
      (c.addShell label).2.register i (c.addShell label).1) = c.started i label late := by
    cases late with
    | true => rfl
    | false => exact register_addShell hnew label
  simp only [copyWithin, hpart, run_get_bind, hnew, run_set_bind, hstarted, run_all]
  rcases hrun : (copyReferences (copyWithin graph bound) c.made.length references).run
    (c.started i label late) with ⟨failure | ⟨⟩, c'⟩
  · exact run_bind_error hrun
  · refine (run_bind_ok hrun).trans ?_
    cases hi : c'.registered? i with
    | none =>
      simp only [run_get_bind, hi, Option.isNone_none, if_true, run_modify_bind, settled,
        register_new hi]
      rfl
    | some j =>
      simp only [run_get_bind, hi, Option.isNone_some, settled]
      rfl

/-- References are copied one after the other, up to one that fails. -/
theorem run_all_cons (r : Option ObjectId) (references : List (Option ObjectId)) :
    ((Task.all j (r :: references)).perform graph bound).run c =
      match (copyWithin graph bound r).run c with
      | (.ok copy, c₁) => ((Task.all j references).perform graph bound).run (c₁.refer j copy)
      | (.error failure, c') => (.error failure, c') := by
  rw [run_all, copyReferences, run_bind]
  rcases (copyWithin graph bound r).run c with ⟨failure | copy, c₁⟩
  · rfl
  · simp only [run_modify_bind, run_all]

/-- What is performed is what the copier does. -/
theorem Performed.run {task : Task} {log : List Request} {result : Except Failure (Option CopyId)}
    (h : Performed graph bound task c log result c') :
    (task.perform graph bound).run c = (result, c') := by
  induction h with
  | absent htarget => exact copyWithin_absent _ htarget
  | found hi hj => exact run_copyWithin_registered hi hj
  | refused hpart hnew => exact run_copyWithin_fixed hpart hnew
  | endless hpart hnew => exact run_copyWithin_zero hpart hnew
  | copied hpart hnew _ ih =>
    rw [Task.perform, run_copyWithin_object hpart hnew, ih]
  | broken hpart hnew _ ih =>
    rw [Task.perform, run_copyWithin_object hpart hnew, ih]
  | done => rfl
  | next _ _ ih ih' =>
    rw [run_all_cons, show (copyWithin graph _ _).run _ = _ from ih]
    exact ih'
  | stopped _ ih =>
    rw [run_all_cons, show (copyWithin graph _ _).run _ = _ from ih]

/-- References are copied, if what they lead to is. -/
theorem exists_performed_all
    (hone : ∀ (r : Option ObjectId) (c : Copier), ∃ log, Performed graph bound (.one r) c log
      ((copyWithin graph bound r).run c).1 ((copyWithin graph bound r).run c).2) (j : CopyId) :
    ∀ (references : List (Option ObjectId)) (c : Copier),
      ∃ log, Performed graph bound (.all j references) c log
        (((Task.all j references).perform graph bound).run c).1
        (((Task.all j references).perform graph bound).run c).2
  | [], c => ⟨[], .done⟩
  | r :: references, c => by
    obtain ⟨log, hlog⟩ := hone r c
    rw [run_all_cons]
    rcases hrun : (copyWithin graph bound r).run c with ⟨failure | copy, c₁⟩
    · rw [hrun] at hlog
      exact ⟨log, .stopped hlog⟩
    · rw [hrun] at hlog
      obtain ⟨log', hlog'⟩ := exists_performed_all hone j references (c₁.refer j copy)
      exact ⟨log ++ log', .next hlog hlog'⟩

theorem run_all_ok {references : List (Option ObjectId)} {copy : Option CopyId}
    (h : ((Task.all j references).perform graph bound).run c = (.ok copy, c')) : copy = none := by
  rw [run_all] at h
  split at h
  · cases h
    rfl
  · cases h

/-- What the copier does is performed, by induction on the bound. -/
theorem exists_performed_one : ∀ (bound : Nat) (r : Option ObjectId) (c : Copier),
    ∃ log, Performed graph bound (.one r) c log
      ((copyWithin graph bound r).run c).1 ((copyWithin graph bound r).run c).2 := by
  intro bound r c
  cases htarget : target? graph r with
  | none =>
    rw [copyWithin_absent r htarget]
    exact ⟨[], .absent htarget⟩
  | some i =>
    obtain rfl := eq_of_target? htarget
    cases hregistered : c.registered? i with
    | some j =>
      rw [run_copyWithin_registered htarget hregistered]
      exact ⟨_, .found htarget hregistered⟩
    | none =>
      match hpart : graph.getD i .missing, bound with
      | .missing, _ =>
        rw [target?, Option.bind_some, hpart] at htarget
        cases htarget
      | .fixed typeName, bound =>
        rw [run_copyWithin_fixed hpart hregistered]
        exact ⟨_, .refused hpart hregistered⟩
      | .object label references late, 0 =>
        rw [run_copyWithin_zero hpart hregistered]
        exact ⟨_, .endless hpart hregistered⟩
      | .object label references late, bound + 1 =>
        obtain ⟨log, hlog⟩ := exists_performed_all (exists_performed_one bound) c.made.length
          references (c.started i label late)
        rw [run_copyWithin_object hpart hregistered]
        rcases hrun : ((Task.all c.made.length references).perform graph bound).run
          (c.started i label late) with ⟨failure | copy, c'⟩
        · rw [hrun] at hlog
          exact ⟨_, .broken hpart hregistered hlog⟩
        · rw [hrun, run_all_ok hrun] at hlog
          exact ⟨_, .copied hpart hregistered hlog⟩

/-- **The rules tell exactly what the copier does.** -/
theorem performed_iff {task : Task} {result : Except Failure (Option CopyId)} :
    (∃ log, Performed graph bound task c log result c') ↔
      (task.perform graph bound).run c = (result, c') := by
  constructor
  · rintro ⟨log, h⟩
    exact h.run
  · intro h
    have hperformed : ∃ log, Performed graph bound task c log
        ((task.perform graph bound).run c).1 ((task.perform graph bound).run c).2 := by
      cases task with
      | one r => exact exists_performed_one bound r c
      | all j references => exact exists_performed_all (exists_performed_one bound) j references c
    rwa [h] at hperformed

end Exactly

/-! ## 4. Numbers and registrations -/

/-- A copy of an object has been begun. -/
def Began (log : List Request) (i : ObjectId) (j : CopyId) : Prop :=
  ∃ course failure?, .begun i j course failure? ∈ log

/-- The copies begun are numbered from `first` on. -/
def Numbered (first : CopyId) (log : List Request) : Prop :=
  ∀ i j, Began log i j → ∃ n, j = first + n ∧ (origins log)[n]? = some i

section Numbers

variable {log log' : List Request} {first : CopyId} {i k : ObjectId} {j : CopyId}

theorem began_append : Began (log ++ log') i j ↔ Began log i j ∨ Began log' i j := by
  simp only [Began, List.mem_append, exists_or]

theorem began_begun {course : List ObjectId} {failure? : Option Failure} {l : CopyId} :
    Began (.begun k l course failure? :: log) i j ↔ (i = k ∧ j = l) ∨ Began log i j := by
  simp [Began, exists_or]

theorem origins_append (log log' : List Request) :
    origins (log ++ log') = origins log ++ origins log' := List.filterMap_append

theorem Numbered.append (h : Numbered first log)
    (h' : Numbered (first + (origins log).length) log') : Numbered first (log ++ log') := by
  intro i j hi
  rw [origins_append]
  rcases began_append.mp hi with hi | hi
  · obtain ⟨n, rfl, hn⟩ := h i j hi
    exact ⟨n, rfl, by rw [List.getElem?_append_left (List.getElem?_eq_some_iff.mp hn).1, hn]⟩
  · obtain ⟨n, rfl, hn⟩ := h' i j hi
    refine ⟨(origins log).length + n, Nat.add_assoc _ _ _, ?_⟩
    rw [List.getElem?_append_right (Nat.le_add_right _ _), Nat.add_sub_cancel_left, hn]

theorem Numbered.begun (h : Numbered (first + 1) log) (i : ObjectId) (course : List ObjectId)
    (failure? : Option Failure) : Numbered first (.begun i first course failure? :: log) := by
  have hone : Numbered first [.begun i first course failure?] := by
    intro k j hk
    obtain ⟨rfl, rfl⟩ | ⟨_, _, hnil⟩ := began_begun.mp hk
    · exact ⟨0, rfl, rfl⟩
    · cases hnil
  exact hone.append h

/-- A copy is one of a single object. -/
theorem Numbered.origin_eq (h : Numbered first log) (hi : Began log i j) (hk : Began log k j) :
    i = k := by
  obtain ⟨n, hn, hi⟩ := h i j hi
  obtain ⟨m, hm, hk⟩ := h k j hk
  obtain rfl : n = m := Nat.add_left_cancel (hn.symm.trans hm)
  exact Option.some.inj (hi.symm.trans hk)

theorem Numbered.le (h : Numbered first log) (hi : Began log i j) : first ≤ j := by
  obtain ⟨n, rfl, -⟩ := h i j hi
  exact Nat.le_add_right first n

theorem Numbered.lt (h : Numbered first log) (hi : Began log i j) :
    j < first + (origins log).length := by
  obtain ⟨n, rfl, hn⟩ := h i j hi
  exact Nat.add_lt_add_left (List.getElem?_eq_some_iff.mp hn).1 first

end Numbers

section Performed

variable {graph : Graph} {bound : Nat} {task : Task} {c c' : Copier} {log : List Request}
  {result : Except Failure (Option CopyId)} {i : ObjectId} {j : CopyId}

theorem length_made_refer (c : Copier) (j : CopyId) (r : Option CopyId) :
    (c.refer j r).made.length = c.made.length := by
  rw [refer, List.length_modify]

/-- Copies are numbered in the order in which they are begun. -/
theorem Performed.numbered (h : Performed graph bound task c log result c') :
    c'.made.length = c.made.length + (origins log).length ∧ Numbered c.made.length log := by
  induction h with
  | absent | found | refused | endless | done => exact ⟨rfl, by simp [Numbered, Began]⟩
  | @copied _ c c' i label _ late log _ _ _ ih =>
    rw [length_made_started] at ih
    refine ⟨?_, ih.2.begun i _ _⟩
    rw [made_settled, ih.1, Nat.add_assoc, Nat.add_comm 1]
    rfl
  | @broken _ c c' i label _ late log _ _ _ _ ih =>
    rw [length_made_started] at ih
    refine ⟨?_, ih.2.begun i _ _⟩
    rw [ih.1, Nat.add_assoc, Nat.add_comm 1]
    rfl
  | next _ _ ih ih' =>
    rw [length_made_refer, ih.1] at ih'
    refine ⟨?_, ih.2.append ih'.2⟩
    rw [ih'.1, origins_append, List.length_append, Nat.add_assoc]
  | stopped _ ih => exact ih

/-- The registry grows at its end. -/
theorem Performed.registry (h : Performed graph bound task c log result c') :
    c.registry <+: c'.registry := by
  induction h with
  | absent | found | refused | endless | done => exact List.prefix_rfl
  | copied _ _ _ ih => exact ((registry_started ..).trans ih).trans (registry_settled ..)
  | broken _ _ _ ih => exact (registry_started ..).trans ih
  | next _ _ ih ih' => exact ih.trans ih'
  | stopped _ ih => exact ih

/-- A registration comes from a request that has begun the copy, and has ended well unless the
object is early. -/
def Sourced (graph : Graph) (log : List Request) (i : ObjectId) (j : CopyId) : Prop :=
  ∃ course failure?, .begun i j course failure? ∈ log ∧ (IsEarly graph i ∨ failure? = none)

theorem Sourced.began (h : Sourced graph log i j) : Began log i j := by
  obtain ⟨course, failure?, hmem, -⟩ := h
  exact ⟨course, failure?, hmem⟩

theorem Sourced.subset {log' : List Request} (h : Sourced graph log i j) (hlog : log ⊆ log') :
    Sourced graph log' i j := by
  obtain ⟨course, failure?, hmem, hor⟩ := h
  exact ⟨course, failure?, hlog hmem, hor⟩

theorem mem_registry_started {label : String} {references : List (Option ObjectId)} {late : Bool}
    {p : ObjectId × CopyId} (hpart : graph.getD i .missing = .object label references late)
    (hp : p ∈ (c.started i label late).registry) :
    p ∈ c.registry ∨ p = (i, c.made.length) ∧ IsEarly graph i := by
  cases late with
  | true => exact .inl hp
  | false =>
    refine (List.mem_append.mp hp).imp_right fun hp => ?_
    exact ⟨List.mem_singleton.mp hp, label, references, hpart⟩

theorem mem_registry_settled {p : ObjectId × CopyId} (hp : p ∈ (c.settled i j).registry) :
    p ∈ c.registry ∨ p = (i, j) := by
  rw [settled] at hp
  split at hp
  · exact (List.mem_append.mp hp).imp_right List.mem_singleton.mp
  · exact .inl hp

/-- What is registered has been before, or has been begun. -/
theorem Performed.mem_registry (h : Performed graph bound task c log result c')
    {p : ObjectId × CopyId} (hp : p ∈ c'.registry) :
    p ∈ c.registry ∨ Sourced graph log p.1 p.2 := by
  induction h with
  | absent | found | refused | endless | done => exact .inl hp
  | copied hpart _ _ ih =>
    rcases mem_registry_settled hp with hp | rfl
    · rcases ih hp with hp | hp
      · rcases mem_registry_started hpart hp with hp | ⟨rfl, hearly⟩
        · exact .inl hp
        · exact .inr ⟨_, _, List.mem_cons_self, .inl hearly⟩
      · exact .inr (hp.subset (List.subset_cons_self _ _))
    · exact .inr ⟨_, _, List.mem_cons_self, .inr rfl⟩
  | broken hpart _ _ ih =>
    rcases ih hp with hp | hp
    · rcases mem_registry_started hpart hp with hp | ⟨rfl, hearly⟩
      · exact .inl hp
      · exact .inr ⟨_, _, List.mem_cons_self, .inl hearly⟩
    · exact .inr (hp.subset (List.subset_cons_self _ _))
  | next _ _ ih ih' =>
    rcases ih' hp with hp | hp
    · exact (ih hp).imp_right fun hp => hp.subset (List.subset_append_left _ _)
    · exact .inr (hp.subset (List.subset_append_right _ _))
  | stopped _ ih => exact ih hp

/-- A copy that is found is registered. -/
theorem Performed.registered_found (h : Performed graph bound task c log result c')
    (hfound : .found i j ∈ log) : c'.registered? i = some j := by
  induction h with
  | absent | done => cases hfound
  | refused | endless => simp at hfound
  | found _ hj =>
    rw [List.mem_singleton] at hfound
    cases hfound
    exact hj
  | copied _ _ _ ih =>
    rcases List.mem_cons.mp hfound with hfound | hfound
    · cases hfound
    · exact registered?_of_isPrefix (registry_settled ..) (ih hfound)
  | broken _ _ _ ih =>
    rcases List.mem_cons.mp hfound with hfound | hfound
    · cases hfound
    · exact ih hfound
  | next _ h' ih ih' =>
    rcases List.mem_append.mp hfound with hfound | hfound
    · exact registered?_of_isPrefix h'.registry (ih hfound)
    · exact ih' hfound
  | stopped _ ih => exact ih hfound

/-- Copies are begun of objects only. -/
theorem Performed.began_object (h : Performed graph bound task c log result c')
    (hbegan : Began log i j) :
    ∃ label references late, graph.getD i .missing = .object label references late := by
  induction h with
  | absent | found | refused | endless | done => simp [Began] at hbegan
  | copied hpart _ _ ih =>
    obtain ⟨rfl, -⟩ | hbegan := began_begun.mp hbegan
    · exact ⟨_, _, _, hpart⟩
    · exact ih hbegan
  | broken hpart _ _ ih =>
    obtain ⟨rfl, -⟩ | hbegan := began_begun.mp hbegan
    · exact ⟨_, _, _, hpart⟩
    · exact ih hbegan
  | next _ _ ih ih' => exact (began_append.mp hbegan).elim ih ih'
  | stopped _ ih => exact ih hbegan

/-- What ends well has had all its requests answered. -/
theorem Performed.answered (h : Performed graph bound task c log result c') {copy : Option CopyId}
    (hok : result = .ok copy) : ∀ request ∈ log, ∃ j, request.answer? = some j := by
  induction h generalizing copy with
  | absent | done => exact fun _ hr => absurd hr List.not_mem_nil
  | refused | endless | broken | stopped => cases hok
  | found =>
    intro request hr
    rw [List.mem_singleton.mp hr]
    exact ⟨_, rfl⟩
  | copied _ _ _ ih =>
    intro request hr
    rcases List.mem_cons.mp hr with rfl | hr
    · exact ⟨_, rfl⟩
    · exact ih rfl request hr
  | next _ _ ih ih' =>
    intro request hr
    exact (List.mem_append.mp hr).elim (ih rfl request) (ih' hok request)

end Performed

/-! ## 5. Passes -/

/-- A pass: objects are copied one after the other, from an empty registry on, with all requests that
are made on the way.  A call that fails does not end it, and there is no call that does not go on with
it (`Pass.exists_call`). -/
inductive Pass (graph : Graph) (first : CopyId) : List Request → Copier → Prop
  | start {c} : c.registry = [] → c.made.length = first → Pass graph first [] c
  | call {log c r log' result c'} : Pass graph first log c →
      Performed graph (pathBound graph) (.one r) c log' result c' →
        Pass graph first (log ++ log') c'

namespace Pass

variable {graph : Graph} {first : CopyId} {log : List Request} {c c' : Copier} {i : ObjectId}
  {j : CopyId} {r : Option ObjectId} {result : Except Failure (Option CopyId)}

/-- Every call goes on with the pass. -/
theorem exists_call (h : Pass graph first log c) (hrun : (copy graph r).run c = (result, c')) :
    ∃ log', Performed graph (pathBound graph) (.one r) c log' result c' ∧
      Pass graph first (log ++ log') c' := by
  have hperform : (Task.perform graph (pathBound graph) (.one r)).run c = (result, c') := hrun
  obtain ⟨log', hlog'⟩ := performed_iff.mpr hperform
  exact ⟨log', hlog', h.call hlog'⟩

theorem numbered (h : Pass graph first log c) :
    c.made.length = first + (origins log).length ∧ Numbered first log := by
  induction h with
  | start _ hfirst => exact ⟨hfirst, by simp [Numbered, Began]⟩
  | call _ h' ih =>
    have hnumbered := h'.numbered
    rw [ih.1] at hnumbered
    refine ⟨?_, ih.2.append hnumbered.2⟩
    rw [hnumbered.1, origins_append, List.length_append, Nat.add_assoc]

/-- What is registered has been begun. -/
theorem sourced (h : Pass graph first log c) {p : ObjectId × CopyId} (hp : p ∈ c.registry) :
    Sourced graph log p.1 p.2 := by
  induction h with
  | start hempty =>
    rw [hempty] at hp
    cases hp
  | call _ h' ih =>
    rcases h'.mem_registry hp with hp | hp
    · exact (ih hp).subset (List.subset_append_left _ _)
    · exact hp.subset (List.subset_append_right _ _)

theorem registered_found (h : Pass graph first log c) (hfound : .found i j ∈ log) :
    c.registered? i = some j := by
  induction h with
  | start => cases hfound
  | call _ h' ih =>
    rcases List.mem_append.mp hfound with hfound | hfound
    · exact registered?_of_isPrefix h'.registry (ih hfound)
    · exact h'.registered_found hfound

theorem began_object (h : Pass graph first log c) (hbegan : Began log i j) :
    ∃ label references late, graph.getD i .missing = .object label references late := by
  induction h with
  | start => simp [Began] at hbegan
  | call _ h' ih => exact (began_append.mp hbegan).elim ih h'.began_object

end Pass

end Copier
end FormulaEvolution
