/-
# Requests for the same object

Which requests for an object are answered with the same copy (`Copier.answers_agree_iff`), in a pass
over any graph, whether its calls end well or not.

Copies of different objects are always different.  All requests for an object are answered with one
copy if it is early, since its copy is registered before anything else is asked for.  The copy of a
late object is registered once its references have been copied, and if the object is asked for again
meanwhile, a second copy is begun.  That one ends first, so it is the one that stays registered, and
all other requests are answered with it; but the request that began the first copy is answered with
the first copy.

So two copies need a late object on a cycle.  `pair` is the smallest such graph: a late object and an
early one, each of which refers to the other.
-/
import FormulaEvolution.Proofs.Copying.Requests

namespace FormulaEvolution
namespace Copier

/-! ## 1. Requests in the course of a request -/

section Courses

variable {graph : Graph} {bound : Nat} {task : Task} {c c' : Copier} {log : List Request}
  {result : Except Failure (Option CopyId)} {i k : ObjectId} {j : CopyId}

/-- Only what can be reached is asked for. -/
theorem Performed.reached (h : Performed graph bound task c log result c') :
    ∀ request ∈ log, ∃ k, task.Targets graph k ∧ Reaches graph k request.origin := by
  induction h with
  | absent | done => exact fun _ hr => absurd hr List.not_mem_nil
  | found hi =>
    intro request hr
    rw [List.mem_singleton.mp hr]
    exact ⟨_, hi, .refl⟩
  | refused hpart =>
    intro request hr
    rw [List.mem_singleton.mp hr]
    exact ⟨_, target?_some (by rw [hpart]; exact nofun), .refl⟩
  | endless hpart =>
    intro request hr
    rw [List.mem_singleton.mp hr]
    exact ⟨_, target?_object hpart, .refl⟩
  | copied hpart _ _ ih | broken hpart _ _ ih =>
    intro request hr
    refine ⟨_, target?_object hpart, ?_⟩
    rcases List.mem_cons.mp hr with rfl | hr
    · exact .refl
    · obtain ⟨k, ⟨r, hmem, hk⟩, hreach⟩ := ih request hr
      exact .head ⟨_, _, _, r, hpart, hmem, hk⟩ hreach
  | next _ _ ih ih' =>
    intro request hr
    rcases List.mem_append.mp hr with hr | hr
    · obtain ⟨k, hk, hreach⟩ := ih request hr
      exact ⟨k, ⟨_, List.mem_cons_self, hk⟩, hreach⟩
    · obtain ⟨k, ⟨r, hmem, hk⟩, hreach⟩ := ih' request hr
      exact ⟨k, ⟨r, List.mem_cons_of_mem _ hmem, hk⟩, hreach⟩
  | stopped _ ih =>
    intro request hr
    obtain ⟨k, hk, hreach⟩ := ih request hr
    exact ⟨k, ⟨_, List.mem_cons_self, hk⟩, hreach⟩

/-- What is asked for while references are copied can be reached by one reference or more. -/
theorem reached_of_references {label : String} {references : List (Option ObjectId)} {late : Bool}
    (hpart : graph.getD i .missing = .object label references late)
    (h : Performed graph bound (.all j references) c log result c')
    (hk : k ∈ log.map (·.origin)) : Relation.TransGen (Refers graph) i k := by
  obtain ⟨request, hr, rfl⟩ := List.mem_map.mp hk
  obtain ⟨l, ⟨r, hmem, hl⟩, hreach⟩ := h.reached request hr
  exact .head' ⟨label, references, late, r, hpart, hmem, hl⟩ hreach

theorem Performed.course_reached (h : Performed graph bound task c log result c')
    {course : List ObjectId} {failure? : Option Failure}
    (hbegun : .begun i j course failure? ∈ log) (hk : k ∈ course) :
    Relation.TransGen (Refers graph) i k := by
  induction h with
  | absent | done => cases hbegun
  | found | refused | endless => simp at hbegun
  | copied hpart _ h' ih | broken hpart _ h' ih =>
    rcases List.mem_cons.mp hbegun with heq | hbegun
    · cases heq
      exact reached_of_references hpart h' hk
    · exact ih hbegun
  | next _ _ ih ih' => exact (List.mem_append.mp hbegun).elim ih ih'
  | stopped _ ih => exact ih hbegun

theorem Pass.course_reached {first : CopyId} (h : Pass graph first log c) {course : List ObjectId}
    {failure? : Option Failure} (hbegun : .begun i j course failure? ∈ log) (hk : k ∈ course) :
    Relation.TransGen (Refers graph) i k := by
  induction h with
  | start => cases hbegun
  | call _ h' ih =>
    exact (List.mem_append.mp hbegun).elim ih fun hbegun => h'.course_reached hbegun hk

end Courses

/-! ## 2. What a request leaves registered -/

section Registered

variable {graph : Graph} {bound : Nat} {task : Task} {c c' : Copier} {log : List Request}
  {result : Except Failure (Option CopyId)} {i : ObjectId} {j : CopyId}

/-- The copy that a request has begun is the registered one, unless the object is late and has been
asked for in the course of the request. -/
def Keeps (graph : Graph) (c : Copier) (i : ObjectId) (j : CopyId) (course : List ObjectId) :
    Prop :=
  ∃ j', c.registered? i = some j' ∧ (j' = j ↔ IsEarly graph i ∨ i ∉ course)

theorem Keeps.mono {course : List ObjectId} (h : Keeps graph c i j course)
    (hregistry : c.registry <+: c'.registry) : Keeps graph c' i j course := by
  obtain ⟨j', hj', hiff⟩ := h
  exact ⟨j', registered?_of_isPrefix hregistry hj', hiff⟩

/-- **Settling a copy keeps it, or the one that has been registered in its course.** -/
theorem keeps_settled {label : String} {references : List (Option ObjectId)} {late : Bool}
    (hpart : graph.getD i .missing = .object label references late)
    (hnew : c.registered? i = none)
    (h : Performed graph bound (.all c.made.length references) (c.started i label late) log
      (.ok none) c')
    (hregistered : i ∈ log.map (·.origin) → (c'.registered? i).isSome) :
    Keeps graph (c'.settled i c.made.length) i c.made.length (log.map (·.origin)) := by
  refine ⟨_, registered?_settled_self c' i c.made.length, ?_⟩
  rw [isEarly_iff hpart]
  cases late with
  | false =>
    rw [registered?_of_isPrefix h.registry (registered?_started_early hnew)]
    simp
  | true =>
    -- A registration made meanwhile is one of a copy begun meanwhile, since `i` is not registered.
    have hsourced : ∀ j, c'.registered? i = some j → Sourced graph log i j := by
      intro j hj
      rcases h.mem_registry (mem_of_registered? hj) with hold | hsourced
      · exact absurd (List.mem_map_of_mem hold) (registered?_eq_none_iff.mp hnew)
      · exact hsourced
    simp only [Bool.true_eq_false, false_or]
    constructor
    · intro heq hcourse
      obtain ⟨j, hj⟩ := Option.isSome_iff_exists.mp (hregistered hcourse)
      rw [hj, Option.getD_some] at heq
      have hle := h.numbered.2.le (hsourced j hj).began
      rw [length_made_started, heq] at hle
      exact Nat.not_succ_le_self _ hle
    · intro hcourse
      cases hj : c'.registered? i with
      | none => rfl
      | some j =>
        obtain ⟨course, failure?, hmem, -⟩ := hsourced j hj
        exact absurd (List.mem_map_of_mem hmem) hcourse

/-- Every request that is answered leaves its object registered. -/
theorem registered_of_answer {request : Request} (hanswer : request.answer? = some j)
    (hfound : ∀ i j, request = .found i j → c.registered? i = some j)
    (hbegun : ∀ i j course, request = .begun i j course none → Keeps graph c i j course) :
    (c.registered? request.origin).isSome := by
  match request with
  | .found i j => exact Option.isSome_iff_exists.mpr ⟨j, hfound i j rfl⟩
  | .begun i j course none =>
    obtain ⟨j', hj', -⟩ := hbegun i j course rfl
    exact Option.isSome_iff_exists.mpr ⟨j', hj'⟩
  | .begun _ _ _ (some _) => cases hanswer
  | .refused _ _ => cases hanswer

theorem Performed.keeps (h : Performed graph bound task c log result c') {course : List ObjectId}
    (hbegun : .begun i j course none ∈ log) : Keeps graph c' i j course := by
  induction h generalizing i j course with
  | absent | done => cases hbegun
  | found | refused | endless => simp at hbegun
  | copied hpart hnew h' ih =>
    rcases List.mem_cons.mp hbegun with heq | hbegun
    · cases heq
      refine keeps_settled hpart hnew h' fun hcourse => ?_
      obtain ⟨request, hr, rfl⟩ := List.mem_map.mp hcourse
      obtain ⟨j, hj⟩ := h'.answered rfl request hr
      exact registered_of_answer hj (fun i j heq => h'.registered_found (heq ▸ hr))
        fun i j course heq => ih (heq ▸ hr)
    · exact (ih hbegun).mono (registry_settled ..)
  | broken _ _ _ ih =>
    rcases List.mem_cons.mp hbegun with heq | hbegun
    · cases heq
    · exact ih hbegun
  | next _ h' ih ih' =>
    rcases List.mem_append.mp hbegun with hbegun | hbegun
    · exact (ih hbegun).mono h'.registry
    · exact ih' hbegun
  | stopped _ ih => exact ih hbegun

theorem Pass.keeps {first : CopyId} (h : Pass graph first log c) {course : List ObjectId}
    (hbegun : .begun i j course none ∈ log) : Keeps graph c i j course := by
  induction h with
  | start => cases hbegun
  | call _ h' ih =>
    rcases List.mem_append.mp hbegun with hbegun | hbegun
    · exact (ih hbegun).mono h'.registry
    · exact h'.keeps hbegun

end Registered

/-! ## 3. Answers -/

/-- A request for an object has been answered with a copy. -/
def Answered (log : List Request) (i : ObjectId) (j : CopyId) : Prop :=
  ∃ request ∈ log, request.origin = i ∧ request.answer? = some j

section Answers

variable {graph : Graph} {first : CopyId} {c : Copier} {log : List Request} {i : ObjectId}
  {j : CopyId}

theorem answered_iff : Answered log i j ↔
    .found i j ∈ log ∨ ∃ course, .begun i j course none ∈ log := by
  constructor
  · rintro ⟨request, hr, rfl, hanswer⟩
    match request with
    | .found i j => cases hanswer; exact .inl hr
    | .begun i j course none => cases hanswer; exact .inr ⟨course, hr⟩
    | .begun _ _ _ (some _) => cases hanswer
    | .refused _ _ => cases hanswer
  · rintro (hfound | ⟨course, hbegun⟩)
    · exact ⟨_, hfound, rfl, rfl⟩
    · exact ⟨_, hbegun, rfl, rfl⟩

/-- An answer is a copy that has been begun for the object. -/
theorem Pass.began_of_answered (h : Pass graph first log c) (ha : Answered log i j) :
    Began log i j := by
  rcases answered_iff.mp ha with hfound | ⟨course, hbegun⟩
  · exact (h.sourced (mem_of_registered? (h.registered_found hfound))).began
  · exact ⟨course, none, hbegun⟩

/-- The registered copy of a late object has been an answer. -/
theorem Pass.answered_of_registered (h : Pass graph first log c) (hj : c.registered? i = some j)
    (hlate : ¬IsEarly graph i) : Answered log i j := by
  obtain ⟨course, failure?, hmem, hearly | rfl⟩ := h.sourced (mem_of_registered? hj)
  · exact absurd hearly hlate
  · exact answered_iff.mpr (.inr ⟨course, hmem⟩)

/-- **An answer is the registered copy**, unless the object is late and has been asked for in the
course of the request that began it. -/
theorem Pass.registered_of_answered (h : Pass graph first log c) (ha : Answered log i j) :
    ∃ j', c.registered? i = some j' ∧
      (j' = j ∨ ¬IsEarly graph i ∧ ∃ course, .begun i j course none ∈ log ∧ i ∈ course) := by
  rcases answered_iff.mp ha with hfound | ⟨course, hbegun⟩
  · exact ⟨j, h.registered_found hfound, .inl rfl⟩
  · obtain ⟨j', hj', hiff⟩ := h.keeps hbegun
    refine ⟨j', hj', or_iff_not_imp_left.mpr fun hne => ?_⟩
    rw [hiff, not_or, not_not] at hne
    exact ⟨hne.1, course, hbegun, hne.2⟩

/-- The requests for an object have all been answered with one copy. -/
def Agree (log : List Request) (i : ObjectId) : Prop :=
  ∀ j j', Answered log i j → Answered log i j' → j = j'

theorem Pass.agree_iff (h : Pass graph first log c) :
    Agree log i ↔ IsEarly graph i ∨ ∀ j course, .begun i j course none ∈ log → i ∉ course := by
  constructor
  · intro hagree
    refine or_iff_not_imp_left.mpr fun hlate j course hbegun => ?_
    obtain ⟨j', hj', hiff⟩ := h.keeps hbegun
    have heq := hagree j' j (h.answered_of_registered hj' hlate)
      (answered_iff.mpr (.inr ⟨course, hbegun⟩))
    exact (hiff.mp heq).resolve_left hlate
  · intro hkept
    have hregistered : ∀ j, Answered log i j → c.registered? i = some j := by
      intro j ha
      obtain ⟨j', hj', rfl | ⟨hlate, course, hbegun, hcourse⟩⟩ := h.registered_of_answered ha
      · exact hj'
      · exact absurd hcourse (hkept.resolve_left hlate j course hbegun)
    intro j j' hj hj'
    exact Option.some.inj ((hregistered j hj).symm.trans (hregistered j' hj'))

end Answers

/-- **All requests for an object are answered with one copy exactly if it is early, or has never been
asked for in the course of a request that began a copy of it.**  In a pass over any graph:

* answers with the same copy are answers to requests for the same object;
* a request whose object has been asked for in its course can end well only if the object is on a
  cycle, so that answers about other objects always agree;
* later calls give the registered copy, which is the answer to all requests for the object, but for
  those that have begun another one in the course of which a late object has been asked for again. -/
theorem answers_agree_iff {graph : Graph} {first : CopyId} {log : List Request} {c : Copier}
    (h : Pass graph first log c) :
    (∀ i k j, Answered log i j → Answered log k j → i = k) ∧
      (∀ i, Agree log i ↔
        IsEarly graph i ∨ ∀ j course, .begun i j course none ∈ log → i ∉ course) ∧
      (∀ i, ¬Relation.TransGen (Refers graph) i i → Agree log i) ∧
      ∀ i j, Answered log i j → ∃ j', (copy graph (some i)).run c = (.ok (some j'), c) ∧
        (j' = j ∨ ¬IsEarly graph i ∧ ∃ course, .begun i j course none ∈ log ∧ i ∈ course) := by
  refine ⟨fun i k j hi hk => ?_, fun i => h.agree_iff, fun i hacyclic => ?_, fun i j ha => ?_⟩
  · exact h.numbered.2.origin_eq (h.began_of_answered hi) (h.began_of_answered hk)
  · refine h.agree_iff.mpr (.inr fun j course hbegun hcourse => ?_)
    exact hacyclic (h.course_reached hbegun hcourse)
  · obtain ⟨j', hj', hor⟩ := h.registered_of_answered ha
    obtain ⟨label, references, late, hpart⟩ := h.began_object (h.began_of_answered ha)
    exact ⟨j', run_copyWithin_registered (target?_object hpart) hj', hor⟩

/-- A late object and an early one that refer to each other. -/
def pair : Graph := [.object "late" [some 1] true, .object "early" [some 0] false]

/-- What a call for the late object leaves: two copies of it, of which the second is registered. -/
def pairCopier : Copier :=
  ⟨[⟨"late", [some 1]⟩, ⟨"early", [some 2]⟩, ⟨"late", [some 1]⟩], [(1, 1), (0, 2)]⟩

theorem performed_pair : Performed pair (pathBound pair) (.one (some 0)) {}
    [.begun 0 0 [1, 0, 1] none, .begun 1 1 [0, 1] none, .begun 0 2 [1] none, .found 1 1]
    (.ok (some 0)) pairCopier := by
  have hlate : pair.getD 0 .missing = .object "late" [some 1] true := rfl
  have hearly : pair.getD 1 .missing = .object "early" [some 0] false := rfl
  have hfound : Performed pair 6 (.one (some 1))
      ⟨[⟨"late", []⟩, ⟨"early", []⟩, ⟨"late", []⟩], [(1, 1)]⟩ _ (.ok (some 1)) _ :=
    .found (target?_object hearly) rfl
  have hsecond : Performed pair 7 (.one (some 0)) ⟨[⟨"late", []⟩, ⟨"early", []⟩], [(1, 1)]⟩ _
      (.ok (some 2)) _ := .copied hlate rfl (.next hfound .done)
  have hreferred : Performed pair 8 (.one (some 1)) ⟨[⟨"late", []⟩], []⟩ _ (.ok (some 1)) _ :=
    .copied hearly rfl (.next hsecond .done)
  have hfirst : Performed pair 9 (.one (some 0)) {} _ (.ok (some 0)) _ :=
    .copied hlate rfl (.next hreferred .done)
  exact hfirst

/-- The requests of two calls for the late object. -/
def pairLog : List Request :=
  [.begun 0 0 [1, 0, 1] none, .begun 1 1 [0, 1] none, .begun 0 2 [1] none, .found 1 1, .found 0 2]

theorem pass_pair : Pass pair 0 pairLog pairCopier := by
  have hfirst : Pass pair 0 [] {} := .start rfl rfl
  exact (hfirst.call performed_pair).call (.found rfl rfl)

/-- Two calls for the late object of a pair: the requests for the early one agree, those for the late
one do not. -/
theorem answers_of_pair : Pass pair 0 pairLog pairCopier ∧ Agree pairLog 1 ∧ ¬Agree pairLog 0 ∧
    ∃ j, (copy pair (some 0)).run pairCopier = (.ok (some j), pairCopier) ∧
      (j = 0 ∨ ∃ course, .begun 0 0 course none ∈ pairLog ∧ 0 ∈ course) := by
  obtain ⟨-, hagree, -, hlater⟩ := answers_agree_iff pass_pair
  refine ⟨pass_pair, (hagree 1).mpr (.inl ⟨_, _, rfl⟩), fun h0 => ?_, ?_⟩
  · rcases (hagree 0).mp h0 with ⟨_, _, hpart⟩ | hcourse
    · cases hpart
    · exact hcourse 0 [1, 0, 1] List.mem_cons_self (by decide)
  · obtain ⟨j, hrun, hor⟩ := hlater 0 0 ⟨_, List.mem_cons_self, rfl, rfl⟩
    exact ⟨j, hrun, hor.imp_right And.right⟩

/-- Two calls for the late object of a pair, and two copies. -/
theorem answers_differ : (copy pair (some 0)).run {} = (.ok (some 0), pairCopier) ∧
    (copy pair (some 0)).run pairCopier = (.ok (some 2), pairCopier) :=
  ⟨performed_pair.run, run_copyWithin_registered rfl rfl⟩

end Copier
end FormulaEvolution
