/-
# Calls that end well and calls that are refused

How a call ends in a pass over any graph, some calls of which may have failed, and what it leaves
(`Copier.call_ends_well_iff`).

What decides is what a call meets on its way: it goes from object to object, up to those that are
registered.  It ends well exactly if this brings it to no value that cannot be copied and to no circle
of late objects.  That it ends in all other cases is a matter of counting: early objects are registered
before their references are copied, so among the objects that are being copied an early one is met
once, and between two of them a late one is met twice only on a circle (`Pending.length_lt`).  That a
circle of late objects is never copied is seen in the registry, where a late object comes after all
that it refers to (`Performed.late_after`).

A call that fails leaves the early objects registered whose copies it has begun.  Later calls stop at
these, whatever lies behind them: they are not refused, and give copies that lack references.  `holder`
is the smallest graph for it.  While no request has failed, a call meets all that can be reached, and
is refused if that holds a value that cannot be copied.
-/
import FormulaEvolution.Proofs.Copying.Wholeness
import Mathlib.Data.List.TakeWhile

namespace FormulaEvolution
namespace Copier

/-! ## 1. What is still to be copied -/

/-- An object that is not registered refers to another one. -/
def Opens (graph : Graph) (c : Copier) (i k : ObjectId) : Prop :=
  c.registered? i = none ∧ Refers graph i k

/-- An object can be reached over objects that are not registered. -/
def OpenReaches (graph : Graph) (c : Copier) : ObjectId → ObjectId → Prop :=
  Relation.ReflTransGen (Opens graph c)

/-- A late object that is not registered refers to another late one. -/
def LateOpens (graph : Graph) (c : Copier) (i k : ObjectId) : Prop :=
  Opens graph c i k ∧ IsLate graph i ∧ IsLate graph k

/-- An object is on a circle of late objects that are not registered. -/
def OnLateCircle (graph : Graph) (c : Copier) (k : ObjectId) : Prop :=
  Relation.TransGen (LateOpens graph c) k k

/-- The place of an object in the registry, or the number of registrations if it has none. -/
def position (c : Copier) (i : ObjectId) : Nat := (c.registry.map (·.1)).idxOf i

section Positions

variable {graph : Graph} {c c' : Copier} {i k : ObjectId} {j : CopyId}

theorem isSome_registered?_iff : (c.registered? i).isSome ↔ i ∈ c.registry.map (·.1) := by
  rw [← Option.ne_none_iff_isSome, ne_eq, registered?_eq_none_iff, not_not]

theorem isSome_of_isPrefix (h : c.registry <+: c'.registry) (hi : (c.registered? i).isSome) :
    (c'.registered? i).isSome := by
  obtain ⟨j, hj⟩ := Option.isSome_iff_exists.mp hi
  rw [registered?_of_isPrefix h hj]
  rfl

theorem position_lt_iff : c.position i < c.registry.length ↔ (c.registered? i).isSome := by
  rw [isSome_registered?_iff, ← List.idxOf_lt_length_iff, List.length_map, position]

theorem position_of_isPrefix (h : c.registry <+: c'.registry) (hi : (c.registered? i).isSome) :
    c'.position i = c.position i := by
  obtain ⟨new, hnew⟩ := h
  rw [position, ← hnew, List.map_append, List.idxOf_append_of_mem (isSome_registered?_iff.mp hi),
    position]

theorem position_settled (hi : c.registered? i = none) :
    (c.settled i j).position i = c.registry.length := by
  rw [settled, if_pos hi, position, List.map_append,
    List.idxOf_append_of_notMem (registered?_eq_none_iff.mp hi), List.length_map]
  simp

/-- What has been registered in the course of a request: while its references were copied, or for the
object itself, before that or afterwards. -/
theorem registered_in_course {label : String} {references : List (Option ObjectId)} {late : Bool}
    {i₀ : ObjectId} (hpart : graph.getD i₀ .missing = .object label references late)
    (hnew : c.registered? i = none) (hi : ((c'.settled i₀ j).registered? i).isSome) :
    (c.started i₀ label late).registered? i = none ∧ (c'.registered? i).isSome ∨
      i = i₀ ∧ (IsEarly graph i₀ ∨ c'.registered? i₀ = none) := by
  cases hc' : c'.registered? i with
  | none =>
    obtain ⟨j', hj'⟩ := Option.isSome_iff_exists.mp hi
    rcases mem_registry_settled (mem_of_registered? hj') with hmem | heq
    · exact absurd (List.mem_map_of_mem hmem) (registered?_eq_none_iff.mp hc')
    · cases heq
      exact .inr ⟨rfl, .inr hc'⟩
  | some l =>
    cases hstarted : (c.started i₀ label late).registered? i with
    | none => exact .inl ⟨rfl, rfl⟩
    | some l' =>
      rcases mem_registry_started hpart (mem_of_registered? hstarted) with hmem | ⟨heq, hearly⟩
      · exact absurd (List.mem_map_of_mem hmem) (registered?_eq_none_iff.mp hnew)
      · cases heq
        exact .inr ⟨rfl, .inl hearly⟩

end Positions

/-! ## 2. Calls that end well -/

section Ending

variable {graph : Graph} {bound : Nat} {task : Task} {c c' : Copier} {log : List Request}
  {result : Except Failure (Option CopyId)} {i k : ObjectId}

theorem refers_targets {label : String} {references : List (Option ObjectId)} {late : Bool}
    {j : CopyId} (hpart : graph.getD i .missing = .object label references late)
    (hk : Refers graph i k) : (Task.all j references).Targets graph k := by
  obtain ⟨_, _, _, r, hpart', hr, htarget⟩ := hk
  rw [hpart] at hpart'
  cases hpart'
  exact ⟨r, hr, htarget⟩

/-- **A task that ends well leaves registered what it is about, and with each object registered in it
what that refers to.** -/
theorem Performed.closed (h : Performed graph bound task c log result c') {copy : Option CopyId}
    (hok : result = .ok copy) : (∀ k, task.Targets graph k → (c'.registered? k).isSome) ∧
      ∀ i, c.registered? i = none → (c'.registered? i).isSome →
        ∀ k, Refers graph i k → (c'.registered? k).isSome := by
  have hunchanged : ∀ (c : Copier) i, c.registered? i = none → (c.registered? i).isSome →
      ∀ k, Refers graph i k → (c.registered? k).isSome := fun c i hnone hsome => by
    rw [hnone] at hsome
    cases hsome
  induction h generalizing copy with
  | refused | endless | broken | stopped => cases hok
  | absent htarget =>
    refine ⟨fun k hk => ?_, hunchanged _⟩
    rw [Task.Targets, htarget] at hk
    cases hk
  | found hi hj =>
    refine ⟨fun k hk => ?_, hunchanged _⟩
    rw [Task.Targets, hi] at hk
    cases hk
    rw [hj]
    rfl
  | done => exact ⟨fun k ⟨_, hr, _⟩ => absurd hr List.not_mem_nil, hunchanged _⟩
  | copied hpart hnew h ih =>
    obtain ⟨htargets, hclosed⟩ := ih rfl
    refine ⟨fun k hk => ?_, fun i hi hsome k hk => ?_⟩
    · rw [Task.Targets, target?_object hpart] at hk
      cases hk
      rw [registered?_settled_self]
      rfl
    · refine isSome_of_isPrefix (registry_settled ..) ?_
      rcases registered_in_course hpart hi hsome with ⟨hstarted, hcourse⟩ | ⟨rfl, -⟩
      · exact hclosed i hstarted hcourse k hk
      · exact htargets k (refers_targets hpart hk)
  | @next _ _ _ _ _ c₁ _ _ _ _ _ _ h' ih ih' =>
    obtain ⟨htargets, hclosed⟩ := ih rfl
    obtain ⟨htargets', hclosed'⟩ := ih' hok
    refine ⟨fun k ⟨r, hr, hk⟩ => ?_, fun i hi hsome k hk => ?_⟩
    · rcases List.mem_cons.mp hr with rfl | hr
      · exact isSome_of_isPrefix h'.registry (htargets k hk)
      · exact htargets' k ⟨r, hr, hk⟩
    · cases hc₁ : c₁.registered? i with
      | none => exact hclosed' i hc₁ hsome k hk
      | some j =>
        exact isSome_of_isPrefix h'.registry (hclosed i hi (by rw [hc₁]; rfl) k hk)

theorem IsLate.not_isEarly (h : IsLate graph i) : ¬IsEarly graph i := by
  obtain ⟨label, references, hpart⟩ := h
  rw [isEarly_iff hpart]
  exact nofun

/-- **A late object is registered after all objects that it refers to**, by a task that ends well. -/
theorem Performed.late_after (h : Performed graph bound task c log result c') {copy : Option CopyId}
    (hok : result = .ok copy) (hi : c.registered? i = none) (hsome : (c'.registered? i).isSome)
    (hlate : IsLate graph i) (hk : Refers graph i k) : c'.position k < c'.position i := by
  induction h generalizing copy with
  | refused | endless | broken | stopped => cases hok
  | absent | found | done => 
    rw [hi] at hsome
    cases hsome
  | copied hpart hnew h ih =>
    rcases registered_in_course hpart hi hsome with ⟨hstarted, hcourse⟩ | ⟨rfl, hearly | hlast⟩
    · have hlt := ih rfl hstarted hcourse
      have hsome := position_lt_iff.mp (Nat.lt_trans hlt (position_lt_iff.mpr hcourse))
      rwa [position_of_isPrefix (registry_settled ..) hsome,
        position_of_isPrefix (registry_settled ..) hcourse]
    · exact absurd hearly hlate.not_isEarly
    · have hsome := (h.closed rfl).1 k (refers_targets hpart hk)
      rw [position_settled hlast, position_of_isPrefix (registry_settled ..) hsome]
      exact position_lt_iff.mpr hsome
  | @next _ _ _ _ _ c₁ _ _ _ _ _ _ h' ih ih' =>
    cases hc₁ : c₁.registered? i with
    | none => exact ih' hok hc₁ hsome
    | some j =>
      have hcourse : (c₁.registered? i).isSome := by rw [hc₁]; rfl
      have hlt := ih rfl hi hcourse
      have hsome := position_lt_iff.mp (Nat.lt_trans hlt (position_lt_iff.mpr hcourse))
      rwa [position_of_isPrefix h'.registry hsome, position_of_isPrefix h'.registry hcourse]

/-- What can be reached over objects that were not registered is registered afterwards. -/
theorem Performed.registered_openReaches (h : Performed graph bound (.one (some i)) c log result c')
    (hi : target? graph (some i) = some i) {copy : Option CopyId} (hok : result = .ok copy)
    (hk : OpenReaches graph c i k) : (c'.registered? k).isSome := by
  obtain ⟨htargets, hclosed⟩ := h.closed hok
  induction hk with
  | refl => exact htargets i hi
  | tail _ hopen ih => exact hclosed _ hopen.1 ih _ hopen.2

/-- A circle of late objects is never copied. -/
theorem Performed.not_onLateCircle (h : Performed graph bound (.one (some i)) c log result c')
    (hi : target? graph (some i) = some i) {copy : Option CopyId} (hok : result = .ok copy)
    (hk : OpenReaches graph c i k) : ¬OnLateCircle graph c k := by
  intro hcircle
  have hlt : ∀ l, Relation.TransGen (LateOpens graph c) k l →
      OpenReaches graph c i l ∧ c'.position l < c'.position k := by
    intro l hl
    induction hl with
    | single hopen =>
      exact ⟨hk.tail hopen.1, h.late_after hok hopen.1.1 (h.registered_openReaches hi hok hk)
        hopen.2.1 hopen.1.2⟩
    | tail _ hopen ih =>
      refine ⟨ih.1.tail hopen.1, Nat.lt_trans ?_ ih.2⟩
      exact h.late_after hok hopen.1.1 (h.registered_openReaches hi hok ih.1) hopen.2.1 hopen.1.2
  exact Nat.lt_irrefl _ (hlt k hcircle).2

end Ending

/-! ## 3. Calls that break off -/

/-- Objects that are being copied when a call breaks off, the innermost one last: none of them was
registered, and an early one is not met again, since it is registered by then. -/
structure Pending (graph : Graph) (c : Copier) (objects : List ObjectId) : Prop where
  chain : objects.IsChain (Refers graph)
  unregistered : ∀ i ∈ objects, c.registered? i = none
  once : objects.Pairwise fun i k => IsEarly graph i → i ≠ k

/-- What is to blame for a failure: a value that cannot be copied, or a chain that is longer than the
bound. -/
def Blames (graph : Graph) (bound : Nat) (objects : List ObjectId) (failure : Failure) : Prop :=
  (∃ k ∈ objects, ∃ typeName, graph.getD k .missing = .fixed typeName ∧
      failure = .uncopyable typeName) ∨
    failure = .endless ∧ (∀ k ∈ objects, IsEarly graph k ∨ IsLate graph k) ∧
      objects.length = bound + 1

section Breaking

variable {graph : Graph} {bound : Nat} {task : Task} {c c' : Copier} {log : List Request}
  {result : Except Failure (Option CopyId)} {i k : ObjectId} {objects : List ObjectId}

theorem isEarly_or_isLate {label : String} {references : List (Option ObjectId)} {late : Bool}
    (hpart : graph.getD i .missing = .object label references late) :
    IsEarly graph i ∨ IsLate graph i := by
  cases late with
  | true => exact .inr ⟨label, references, hpart⟩
  | false => exact .inl ⟨label, references, hpart⟩

theorem Pending.singleton (hi : c.registered? i = none) : Pending graph c [i] :=
  ⟨.singleton i, by simpa using hi, List.pairwise_singleton _ i⟩

theorem Pending.mono (h : Pending graph c' objects) (hregistry : c.registry <+: c'.registry) :
    Pending graph c objects :=
  ⟨h.chain, fun i hi => registered?_eq_none_of_isPrefix hregistry (h.unregistered i hi), h.once⟩

/-- An object joins those that are being copied because of its references. -/
theorem Pending.cons {label : String} {references : List (Option ObjectId)} {late : Bool}
    (hpart : graph.getD i .missing = .object label references late)
    (hnew : c.registered? i = none) (hk : Refers graph i k)
    (h : Pending graph (c.started i label late) (k :: objects)) :
    Pending graph c (i :: k :: objects) where
  chain := List.isChain_cons_cons.mpr ⟨hk, h.chain⟩
  unregistered := List.forall_mem_cons.mpr
    ⟨hnew, (h.mono (registry_started ..)).unregistered⟩
  once := by
    refine List.pairwise_cons.mpr ⟨fun l hl hearly heq => ?_, h.once⟩
    obtain rfl := (isEarly_iff hpart).mp hearly
    have hnone := h.unregistered l hl
    rw [← heq, registered?_started_early hnew] at hnone
    cases hnone

theorem Blames.cons {label : String} {references : List (Option ObjectId)} {late : Bool}
    {failure : Failure} (hpart : graph.getD i .missing = .object label references late)
    (h : Blames graph bound objects failure) : Blames graph (bound + 1) (i :: objects) failure := by
  rcases h with ⟨k, hk, hfixed⟩ | ⟨rfl, hobjects, hlength⟩
  · exact .inl ⟨k, List.mem_cons_of_mem i hk, hfixed⟩
  · refine .inr ⟨rfl, List.forall_mem_cons.mpr ⟨isEarly_or_isLate hpart, hobjects⟩, ?_⟩
    rw [List.length_cons, hlength]

/-- **A task that breaks off has met a value that cannot be copied, or has gone on to its bound.** -/
theorem Performed.pending (h : Performed graph bound task c log result c') {failure : Failure}
    (herror : result = .error failure) : ∃ i objects, task.Targets graph i ∧
      Pending graph c (i :: objects) ∧ Blames graph bound (i :: objects) failure := by
  induction h generalizing failure with
  | absent | found | copied | done => cases herror
  | @refused _ _ i typeName hpart hnew =>
    cases herror
    exact ⟨i, [], target?_some (by rw [hpart]; exact nofun), .singleton hnew,
      .inl ⟨i, List.mem_cons_self, typeName, hpart, rfl⟩⟩
  | @endless _ i _ _ _ hpart hnew =>
    cases herror
    exact ⟨i, [], target?_object hpart, .singleton hnew,
      .inr ⟨rfl, by simpa using isEarly_or_isLate hpart, rfl⟩⟩
  | @broken _ _ _ i _ _ _ _ _ hpart hnew _ ih =>
    obtain ⟨k, objects, ⟨r, hr, hk⟩, hpending, hblames⟩ := ih herror
    have hrefers : Refers graph i k := ⟨_, _, _, r, hpart, hr, hk⟩
    exact ⟨i, k :: objects, target?_object hpart, hpending.cons hpart hnew hrefers,
      hblames.cons hpart⟩
  | next h _ _ ih' =>
    obtain ⟨k, objects, ⟨r, hr, hk⟩, hpending, hblames⟩ := ih' herror
    exact ⟨k, objects, ⟨r, List.mem_cons_of_mem _ hr, hk⟩, hpending.mono h.registry, hblames⟩
  | stopped _ ih =>
    obtain ⟨k, objects, hk, hpending, hblames⟩ := ih herror
    exact ⟨k, objects, ⟨_, List.mem_cons_self, hk⟩, hpending, hblames⟩

theorem Pending.opens (h : Pending graph c objects) : objects.IsChain (Opens graph c) := by
  have hchain := h.chain
  rw [List.isChain_iff_getElem] at hchain ⊢
  exact fun n hn => ⟨h.unregistered _ (List.getElem_mem _), hchain n hn⟩

/-- All objects that are being copied can be reached from the first one. -/
theorem Pending.openReaches (h : Pending graph c (i :: objects)) (hk : k ∈ i :: objects) :
    OpenReaches graph c i k := by
  have hpairwise := List.isChain_iff_pairwise.mp (h.opens.imp fun _ _ => Relation.TransGen.single)
  rcases List.mem_cons.mp hk with rfl | hk
  · exact .refl
  · exact ((List.pairwise_cons.mp hpairwise).1 k hk).to_reflTransGen

/-! ## 4. The bound -/

/-- A list in which no more than `most` items in a row lack a property is no longer than this many for
each item that has it, and for the end. -/
theorem length_le_of_runs {α : Type} (p : α → Bool) (most : Nat) : ∀ (as : List α),
    (∀ run, run <:+: as → (∀ a ∈ run, p a = false) → run.length ≤ most) →
      as.length ≤ as.countP p * (most + 1) + (as.takeWhile fun a => !p a).length
  | [], _ => Nat.zero_le _
  | a :: as, h => by
    have ih := length_le_of_runs p most as fun run hrun =>
      h run (hrun.trans (List.suffix_cons a as).isInfix)
    cases hp : p a with
    | true =>
      have hrun : (as.takeWhile fun a => !p a).length ≤ most := by
        refine h _ (((List.takeWhile_prefix _).isInfix).trans (List.suffix_cons a as).isInfix) ?_
        exact fun b hb => by simpa using List.mem_takeWhile_imp hb
      rw [List.countP_cons_of_pos hp, List.takeWhile_cons_of_neg (by simp [hp]), List.length_cons,
        Nat.succ_mul, List.length_nil]
      omega
    | false =>
      rw [List.countP_cons_of_neg (by simp [hp]), List.takeWhile_cons_of_pos (by simp [hp]),
        List.length_cons, List.length_cons]
      omega

theorem IsLate.lt (h : IsLate graph i) : i < graph.length := by
  obtain ⟨label, references, hpart⟩ := h
  exact lt_of_ne_missing (by rw [hpart]; exact nofun)

/-- Late objects in a row are different ones, unless they are on a circle. -/
theorem Pending.length_run_le (h : Pending graph c objects)
    (hcircle : ∀ k ∈ objects, ¬OnLateCircle graph c k) {run : List ObjectId}
    (hrun : run <:+: objects) (hlate : ∀ k ∈ run, IsLate graph k) : run.length ≤ graph.length := by
  refine length_le_of_nodup ?_ fun k hk => (hlate k hk).lt
  have hchain : run.IsChain (LateOpens graph c) := by
    have hopens := h.opens.infix hrun
    rw [List.isChain_iff_getElem] at hopens ⊢
    exact fun n hn =>
      ⟨hopens n hn, hlate _ (List.getElem_mem _), hlate _ (List.getElem_mem _)⟩
  have hpairwise := List.isChain_iff_pairwise.mp (hchain.imp fun _ _ => Relation.TransGen.single)
  refine hpairwise.imp_of_mem fun hi hk hreach heq => ?_
  subst heq
  exact hcircle _ (hrun.subset hi) hreach

open Classical in
/-- **Without a circle of late objects the bound is never reached**: early objects are met once, and
between them no late one is met twice. -/
theorem Pending.length_lt (h : Pending graph c objects)
    (hobjects : ∀ k ∈ objects, IsEarly graph k ∨ IsLate graph k)
    (hcircle : ∀ k ∈ objects, ¬OnLateCircle graph c k) : objects.length < pathBound graph := by
  have hruns := length_le_of_runs (fun k => decide (IsEarly graph k)) graph.length objects
    fun run hrun hnot => h.length_run_le hcircle hrun fun k hk =>
      (hobjects k (hrun.subset hk)).resolve_left (by simpa using hnot k hk)
  have hlast : (objects.takeWhile fun k => !decide (IsEarly graph k)).length ≤ graph.length := by
    refine h.length_run_le hcircle (List.takeWhile_prefix _).isInfix fun k hk => ?_
    exact (hobjects k ((List.takeWhile_prefix _).subset hk)).resolve_left
      (by simpa using List.mem_takeWhile_imp hk)
  have hearly : objects.countP (fun k => decide (IsEarly graph k)) ≤ graph.length := by
    rw [List.countP_eq_length_filter]
    refine length_le_of_nodup ?_ fun k hk => ?_
    · refine (h.once.filter _).imp_of_mem fun hi _ hne => hne ?_
      simpa using (List.mem_filter.mp hi).2
    · exact IsEarly.lt (by simpa using (List.mem_filter.mp hk).2)
  have hle := Nat.mul_le_mul_right (graph.length + 1) hearly
  rw [pathBound, Nat.succ_mul]
  omega

end Breaking

/-! ## 5. Calls in a pass -/

section Calls

variable {graph : Graph} {first : CopyId} {bound : Nat} {task : Task} {c c' : Copier}
  {log : List Request} {result : Except Failure (Option CopyId)} {failure : Failure}
  {i k : ObjectId} {j : CopyId}

/-- A task that breaks off has a request that is not answered. -/
theorem Performed.unanswered (h : Performed graph bound task c log result c')
    (herror : result = .error failure) : ∃ request ∈ log, request.answer? = none := by
  induction h with
  | absent | found | copied | done => cases herror
  | refused | endless | broken => exact ⟨_, List.mem_cons_self, rfl⟩
  | next _ _ _ ih' =>
    obtain ⟨request, hr, hnone⟩ := ih' herror
    exact ⟨request, List.mem_append_right _ hr, hnone⟩
  | stopped _ ih => exact ih herror

/-- As long as all requests are answered, what is registered refers to what is registered. -/
theorem Pass.closed (h : Pass graph first log c)
    (hall : ∀ request ∈ log, request.answer? ≠ none) (hi : (c.registered? i).isSome)
    (hk : Refers graph i k) : (c.registered? k).isSome := by
  induction h with
  | start hempty =>
    rw [isSome_registered?_iff, hempty] at hi
    cases hi
  | @call _ c _ _ result _ _ h' ih =>
    have hold := ih fun request hr => hall request (List.mem_append_left _ hr)
    cases hc : c.registered? i with
    | some j => exact isSome_of_isPrefix h'.registry (hold (by rw [hc]; rfl))
    | none =>
      match result with
      | .ok copy => exact (h'.closed rfl).2 i hc hi k hk
      | .error failure =>
        obtain ⟨request, hr, hnone⟩ := h'.unanswered rfl
        exact absurd hnone (hall request (List.mem_append_right _ hr))

/-- As long as all requests are answered, what can be reached is registered or can be reached over
objects that are not. -/
theorem Pass.openReaches (h : Pass graph first log c)
    (hall : ∀ request ∈ log, request.answer? ≠ none) (hk : Reaches graph i k) :
    OpenReaches graph c i k ∨ (c.registered? k).isSome := by
  induction hk with
  | refl => exact .inl .refl
  | @tail l k _ hrefers ih =>
    cases hl : c.registered? l with
    | some j => exact .inr (h.closed hall (by rw [hl]; rfl) hrefers)
    | none =>
      refine .inl ((ih.resolve_right fun hsome => ?_).tail ⟨hl, hrefers⟩)
      rw [hl] at hsome
      cases hsome

/-- Only objects are registered. -/
theorem Pass.not_fixed (h : Pass graph first log c) (hi : (c.registered? i).isSome)
    (typeName : String) : graph.getD i .missing ≠ .fixed typeName := by
  obtain ⟨j, hj⟩ := Option.isSome_iff_exists.mp hi
  obtain ⟨label, references, late, hpart⟩ :=
    h.began_object (h.sourced (mem_of_registered? hj)).began
  rw [hpart]
  exact nofun

/-- A copy is whole unless a request that has begun it has broken off. -/
theorem Pass.whole_iff_forall (h : Pass graph first log c) (hbegan : Began log i j) :
    Whole graph log c i j ↔ ∀ course failure, .begun i j course (some failure) ∉ log := by
  constructor
  · intro hwhole course failure hbegun
    cases (h.whole_iff hbegun).mp hwhole
  · intro hnone
    obtain ⟨course, failure?, hbegun⟩ := hbegan
    match failure? with
    | none => exact (h.whole_iff hbegun).mpr rfl
    | some failure => exact absurd hbegun (hnone course failure)

/-- A call that ends well gives a copy that is registered or has been begun for it. -/
theorem Performed.exists_known (h : Performed graph bound (.one (some i)) c log result c')
    (hi : target? graph (some i) = some i) {copy : Option CopyId} (hok : result = .ok copy) :
    ∃ j, copy = some j ∧ Known c log i j := by
  have hmatch := h.matches_answer rfl hok
  rw [Matches, hi] at hmatch
  cases hmatch with
  | some hknown => exact ⟨_, rfl, hknown⟩

/-- A call for an early object that breaks off leaves the copy registered that it has begun. -/
theorem Performed.left_behind (h : Performed graph (bound + 1) (.one (some i)) c log result c')
    (herror : result = .error failure) (hearly : IsEarly graph i) :
    ∃ j course, c'.registered? i = some j ∧ .begun i j course (some failure) ∈ log := by
  obtain ⟨label, references, hpart⟩ := hearly
  cases h with
  | absent | found | copied => cases herror
  | refused hfixed =>
    rw [hpart] at hfixed
    cases hfixed
  | broken hpart' hnew h' =>
    cases herror
    rw [hpart] at hpart'
    cases hpart'
    exact ⟨_, _, registered?_of_isPrefix h'.registry (registered?_started_early hnew),
      List.mem_cons_self⟩

/-- What a call is refused for can be reached over objects that are not registered. -/
theorem Performed.blame (h : Performed graph (pathBound graph) (.one (some i)) c log result c')
    (hi : target? graph (some i) = some i) (herror : result = .error failure) :
    ∃ k, OpenReaches graph c i k ∧
      ((∃ typeName, graph.getD k .missing = .fixed typeName ∧ failure = .uncopyable typeName) ∨
        OnLateCircle graph c k ∧ failure = .endless) := by
  obtain ⟨l, objects, hl, hpending, hblames⟩ := h.pending herror
  rw [Task.Targets, hi] at hl
  cases hl
  rcases hblames with ⟨k, hk, hfixed⟩ | ⟨rfl, hobjects, hlength⟩
  · exact ⟨k, hpending.openReaches hk, .inl hfixed⟩
  · by_contra hnone
    have hlt := hpending.length_lt hobjects fun k hk hcircle =>
      hnone ⟨k, hpending.openReaches hk, .inr ⟨hcircle, rfl⟩⟩
    omega

variable {log' : List Request}

/-- **A call ends well exactly if it meets no value that cannot be copied, and no circle of late
objects.** -/
theorem Pass.exists_ok_iff (hpass : Pass graph first log c) (hi : target? graph (some i) = some i)
    (h : Performed graph (pathBound graph) (.one (some i)) c log' result c') :
    (∃ j, result = .ok (some j)) ↔ ∀ k, OpenReaches graph c i k →
      (∀ typeName, graph.getD k .missing ≠ .fixed typeName) ∧ ¬OnLateCircle graph c k := by
  constructor
  · rintro ⟨j, hok⟩ k hk
    exact ⟨(hpass.call h).not_fixed (h.registered_openReaches hi hok hk),
      h.not_onLateCircle hi hok hk⟩
  · intro hmeets
    match result with
    | .ok copy =>
      obtain ⟨j, rfl, -⟩ := h.exists_known hi rfl
      exact ⟨j, rfl⟩
    | .error failure =>
      obtain ⟨k, hk, ⟨typeName, hfixed, -⟩ | ⟨hcircle, -⟩⟩ := h.blame hi rfl
      · exact absurd hfixed ((hmeets k hk).1 typeName)
      · exact absurd hcircle (hmeets k hk).2

/-- The copy that a call gives is whole, unless an earlier request that has begun it has broken
off. -/
theorem Pass.whole_answer_iff (hpass : Pass graph first log c)
    (hi : target? graph (some i) = some i)
    (h : Performed graph (pathBound graph) (.one (some i)) c log' result c')
    (hok : result = .ok (some j)) : Whole graph (log ++ log') c' i j ↔
      ∀ course failure, .begun i j course (some failure) ∉ log := by
  obtain ⟨_, heq, hknown⟩ := h.exists_known hi hok
  cases heq
  have hbegan : Began (log ++ log') i j := began_append.mpr
    (hknown.imp_left fun hmem => (hpass.sourced hmem).began)
  rw [(hpass.call h).whole_iff_forall hbegan]
  refine forall₂_congr fun course failure => not_congr ?_
  rw [List.mem_append, or_iff_left]
  intro hbegun
  obtain ⟨l, hl⟩ := h.answered hok _ hbegun
  cases hl

/-- **A call for an early object that has failed is not refused a second time**: it gives a copy that
is not whole. -/
theorem Pass.retried (hpass : Pass graph first log c) (hi : target? graph (some i) = some i)
    (h : Performed graph (pathBound graph) (.one (some i)) c log' result c')
    (herror : result = .error failure) (hearly : IsEarly graph i) :
    ∃ j, (copy graph (some i)).run c' = (.ok (some j), c') ∧
      ¬Whole graph (log ++ log') c' i j := by
  have hpass' := hpass.call h
  obtain ⟨bound, hbound⟩ := Nat.exists_eq_succ_of_ne_zero
    (Nat.ne_of_gt (Nat.zero_lt_of_lt (length_lt_pathBound graph)))
  rw [hbound] at h
  obtain ⟨j, course, hj, hbegun⟩ := h.left_behind herror hearly
  refine ⟨j, run_copyWithin_registered hi hj, fun hwhole => ?_⟩
  cases (hpass'.whole_iff (List.mem_append_right _ hbegun)).mp hwhole

/-- As long as all requests are answered, a call is refused if a value that cannot be copied can be
reached at all. -/
theorem Pass.refused_of_reaches (hpass : Pass graph first log c)
    (hi : target? graph (some i) = some i)
    (h : Performed graph (pathBound graph) (.one (some i)) c log' result c')
    (hall : ∀ request ∈ log, request.answer? ≠ none) (hk : Reaches graph i k) {typeName : String}
    (hfixed : graph.getD k .missing = .fixed typeName) : ∃ failure, result = .error failure := by
  have hopen := (hpass.openReaches hall hk).resolve_right fun hsome =>
    hpass.not_fixed hsome typeName hfixed
  match result with
  | .error failure => exact ⟨failure, rfl⟩
  | .ok copy =>
    obtain ⟨j, rfl, -⟩ := h.exists_known hi rfl
    exact absurd hfixed (((hpass.exists_ok_iff hi h).mp ⟨j, rfl⟩ k hopen).1 typeName)

/-- As long as all requests are answered, all copies are whole. -/
theorem Pass.whole_of_answered (h : Pass graph first log c)
    (hall : ∀ request ∈ log, request.answer? ≠ none) (hbegan : Began log i j) :
    Whole graph log c i j := by
  refine (h.whole_iff_forall hbegan).mpr fun course failure hbegun => ?_
  exact absurd rfl (hall _ hbegun)

end Calls

/-- An object that refers to a number, which cannot be copied. -/
def holder : Graph := [.object "holder" [some 1] false, .fixed "number"]

/-- What a call for the holder leaves: a copy without its reference, which is registered. -/
def holderCopier : Copier := ⟨[⟨"holder", []⟩], [(0, 0)]⟩

/-- The requests of a call for the holder, which breaks off. -/
def holderLog : List Request :=
  [.begun 0 0 [1] (some (.uncopyable "number")), .refused 1 (.uncopyable "number")]

theorem performed_holder : Performed holder (pathBound holder) (.one (some 0)) {} holderLog
    (.error (.uncopyable "number")) holderCopier := by
  have hholder : holder.getD 0 .missing = .object "holder" [some 1] false := rfl
  have hnumber : holder.getD 1 .missing = .fixed "number" := rfl
  exact .broken hholder rfl (.stopped (.refused hnumber rfl))

theorem pass_holder : Pass holder 0 holderLog holderCopier := by
  have hfirst : Pass holder 0 [] {} := .start rfl rfl
  exact hfirst.call performed_holder

end Copier
end FormulaEvolution
