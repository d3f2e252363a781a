/-
# A copy has the shape of its origin

Copying an object of a graph whose objects register their copies early ends, and gives a copy of the
part of the graph that can be reached from it (`Copier.copy_isomorphic`): the copies are new, one for
each object reached, with the same labels and with references to the copies of what the object refers
to.

While an object is being copied its own copy is registered already, but has only some of its
references.  The induction therefore tells finished copies from others: whatever is registered during
a call is finished when the call returns (`Grown`), while the copies that were there before are left
alone, but for the one whose references are being filled in.  The bound is never reached: each level
of the recursion registers one more of the objects, and there are only so many.
-/
import FormulaEvolution.Copying
import FormulaEvolution.Proofs.Sequence
import Mathlib.Data.Set.Card
import Mathlib.Logic.Relation

namespace FormulaEvolution
namespace Copier

/-! ## 1. Graphs -/

/-- The object that a reference leads to, if there is one. -/
def target? (graph : Graph) (r : Option ObjectId) : Option ObjectId :=
  r.bind fun k =>
    match graph.getD k .missing with
    | .missing => none
    | _ => some k

/-- An object refers to another one. -/
def Refers (graph : Graph) (i k : ObjectId) : Prop :=
  ∃ label references late r, graph.getD i .missing = .object label references late ∧
    r ∈ references ∧ target? graph r = some k

/-- An object can be reached from another one, by any number of references. -/
def Reaches (graph : Graph) : ObjectId → ObjectId → Prop := Relation.ReflTransGen (Refers graph)

/-- An object that registers its copy before its references are copied. -/
def IsEarly (graph : Graph) (i : ObjectId) : Prop :=
  ∃ label references, graph.getD i .missing = .object label references false

theorem target?_some {graph : Graph} {k : ObjectId} (h : graph.getD k .missing ≠ .missing) :
    target? graph (some k) = some k := by
  rw [target?, Option.bind_some]
  split
  · next hpart => exact absurd hpart h
  · rfl

theorem eq_of_target? {graph : Graph} {r : Option ObjectId} {k : ObjectId}
    (h : target? graph r = some k) : r = some k := by
  obtain ⟨i, rfl, hi⟩ := Option.bind_eq_some_iff.mp h
  split at hi
  · cases hi
  · exact hi

theorem IsEarly.ne_missing {graph : Graph} {i : ObjectId} (h : IsEarly graph i) :
    graph.getD i .missing ≠ .missing := by
  obtain ⟨label, references, hpart⟩ := h
  rw [hpart]
  exact nofun

theorem lt_of_ne_missing {graph : Graph} {i : ObjectId} (h : graph.getD i .missing ≠ .missing) :
    i < graph.length := by
  by_contra hlt
  refine h ?_
  rw [List.getD_eq_getElem?_getD, List.getElem?_eq_none (Nat.le_of_not_lt hlt)]
  rfl

theorem IsEarly.lt {graph : Graph} {i : ObjectId} (h : IsEarly graph i) : i < graph.length :=
  lt_of_ne_missing h.ne_missing

/-- Different objects of a graph are no more than the graph has. -/
theorem length_le_of_nodup {graph : Graph} {objects : List ObjectId} (hnodup : objects.Nodup)
    (hlt : ∀ i ∈ objects, i < graph.length) : objects.length ≤ graph.length := by
  have hsub : objects ⊆ List.range graph.length := fun i hi => List.mem_range.mpr (hlt i hi)
  simpa using (hnodup.subperm hsub).length_le

/-! ## 2. The registry -/

/-- The copy of what a reference leads to, if there is one and it is registered. -/
def image? (graph : Graph) (c : Copier) (r : Option ObjectId) : Option CopyId :=
  (target? graph r).bind c.registered?

/-- A registry whose copies were made one after the other, from `first` on, each for another object;
no other copies have been made since. -/
structure Sound (R : ObjectId → Prop) (first : CopyId) (c : Copier) : Prop where
  distinct : (c.registry.map (·.1)).Nodup
  ordered : c.registry.map (·.2) = List.range' first c.registry.length
  made : c.made.length = first + c.registry.length
  within : ∀ p ∈ c.registry, R p.1

section Registry

variable {graph : Graph} {R : ObjectId → Prop} {first : CopyId} {c c' : Copier} {i : ObjectId}
  {j : CopyId}

theorem registered?_eq_none_iff : c.registered? i = none ↔ i ∉ c.registry.map (·.1) := by
  simp only [registered?, Option.map_eq_none_iff, List.find?_eq_none, List.mem_map, not_exists,
    not_and, decide_eq_true_eq]

/-- What is registered for an object is one of the entries. -/
theorem mem_of_registered? (h : c.registered? i = some j) : (i, j) ∈ c.registry := by
  obtain ⟨p, hp, rfl⟩ := Option.map_eq_some_iff.mp h
  obtain rfl : p.1 = i := by simpa using List.find?_some hp
  exact List.mem_of_find?_eq_some hp

theorem Sound.registered? (h : c.Sound R first) (hmem : (i, j) ∈ c.registry) :
    c.registered? i = some j := by
  cases hi : c.registered? i with
  | none => exact absurd (List.mem_map_of_mem hmem) (registered?_eq_none_iff.mp hi)
  | some k =>
    have hpair := List.inj_on_of_nodup_map h.distinct hmem (mem_of_registered? hi) rfl
    cases hpair
    rfl

/-- Registered copies have been made. -/
theorem Sound.lt_made (h : c.Sound R first) {p : ObjectId × CopyId} (hp : p ∈ c.registry) :
    first ≤ p.2 ∧ p.2 < c.made.length := by
  have hmem : p.2 ∈ c.registry.map (·.2) := List.mem_map_of_mem hp
  rw [h.ordered, List.mem_range'_1] at hmem
  rwa [h.made]

/-- Objects are registered while there are any. -/
theorem Sound.length_le (h : c.Sound R first) (hearly : ∀ i, R i → IsEarly graph i) :
    c.registry.length ≤ graph.length := by
  have hlt : ∀ i ∈ c.registry.map (·.1), i < graph.length := by
    intro i hi
    obtain ⟨p, hp, rfl⟩ := List.mem_map.mp hi
    exact (hearly _ (h.within p hp)).lt
  have hle := length_le_of_nodup h.distinct hlt
  rwa [List.length_map] at hle

/-- Registered copies stay registered as the registry grows at its end. -/
theorem registered?_of_isPrefix (h : c.registry <+: c'.registry) (hi : c.registered? i = some j) :
    c'.registered? i = some j := by
  obtain ⟨new, hnew⟩ := h
  obtain ⟨p, hp, rfl⟩ := Option.map_eq_some_iff.mp hi
  rw [Copier.registered?, ← hnew, List.find?_append, hp]
  rfl

/-- An object that is not registered is registered at the end. -/
theorem register_new (hnew : c.registered? i = none) (j : CopyId) :
    c.register i j = ⟨c.made, c.registry ++ [(i, j)]⟩ := by
  have hany : c.registry.any (·.1 = i) = false := by
    rw [List.any_eq_false]
    intro p hp
    have hmem : p.1 ∈ c.registry.map (·.1) := List.mem_map_of_mem hp
    have hne : p.1 ≠ i := fun hpi => registered?_eq_none_iff.mp hnew (by rwa [hpi] at hmem)
    simpa using hne
  simp only [register, hany, Bool.false_eq_true, if_false]

/-- The copier in which an object has been registered with a copy that has no references yet. -/
def opened (c : Copier) (i : ObjectId) (label : String) : Copier :=
  ⟨c.made ++ [⟨label, []⟩], c.registry ++ [(i, c.made.length)]⟩

theorem register_addShell (hnew : c.registered? i = none) (label : String) :
    (c.addShell label).2.register i (c.addShell label).1 = c.opened i label := by
  rw [register_new (show (c.addShell label).2.registered? i = none from hnew)]
  rfl

theorem Sound.opened (h : c.Sound R first) (hi : R i) (hnew : c.registered? i = none)
    (label : String) : (c.opened i label).Sound R first where
  distinct := by
    rw [Copier.opened, List.map_append, List.nodup_append]
    refine ⟨h.distinct, by simp, ?_⟩
    rintro k hmem _ hlast rfl
    rw [List.map_singleton, List.mem_singleton] at hlast
    rw [hlast] at hmem
    exact registered?_eq_none_iff.mp hnew hmem
  ordered := by
    simp only [Copier.opened, List.map_append, List.length_append, h.ordered, List.map_cons,
      List.map_nil, List.length_singleton, List.range'_concat, h.made, Nat.one_mul]
  made := by
    simp only [Copier.opened, List.length_append, h.made, List.length_singleton, Nat.add_assoc]
  within := by
    intro p hp
    rcases List.mem_append.mp hp with hp | hp
    · exact h.within p hp
    · rw [List.mem_singleton.mp hp]
      exact hi

/-- Giving a copy one more reference changes that copy only. -/
theorem getElem?_refer (c : Copier) (j : CopyId) (r : Option CopyId) (k : CopyId) :
    (c.refer j r).made[k]? =
      if j = k then c.made[k]?.map fun copy => { copy with references := copy.references ++ [r] }
      else c.made[k]? := by
  simp only [refer, List.getElem?_modify]
  split <;> simp

theorem Sound.refer (h : c.Sound R first) (j : CopyId) (r : Option CopyId) :
    (c.refer j r).Sound R first where
  distinct := h.distinct
  ordered := h.ordered
  made := by simpa [Copier.refer] using h.made
  within := h.within

end Registry

/-! ## 3. Finished copies -/

/-- A copy is finished: it has the label of its origin, and for each of the origin's references one
to the copy of what it leads to, which is registered. -/
structure Finished (graph : Graph) (c : Copier) (i : ObjectId) (j : CopyId) : Prop where
  copied : ∃ label references late, graph.getD i .missing = .object label references late ∧
    c.made[j]? = some ⟨label, references.map (image? graph c)⟩
  closed : ∀ k, Refers graph i k → (c.registered? k).isSome

/-- What copying leaves of a copier: entries are added at the end of the registry, and are finished;
copies that were made before are kept, but for one that is being filled in. -/
structure Grown (graph : Graph) (R : ObjectId → Prop) (first : CopyId) (filled : Option CopyId)
    (c c' : Copier) : Prop where
  sound : c'.Sound R first
  registry : c.registry <+: c'.registry
  kept : ∀ k < c.made.length, filled ≠ some k → c'.made[k]? = c.made[k]?
  finished : ∀ p ∈ c'.registry, p ∈ c.registry ∨
    c.made.length ≤ p.2 ∧ Finished graph c' p.1 p.2

section Growth

variable {graph : Graph} {R : ObjectId → Prop} {first : CopyId} {filled : Option CopyId}
  {c c' c'' : Copier} {i : ObjectId} {j : CopyId}

theorem Grown.refl (h : c.Sound R first) : Grown graph R first filled c c :=
  ⟨h, List.prefix_rfl, fun _ _ _ => rfl, fun _ hp => .inl hp⟩

theorem Grown.made_le (hc : c.Sound R first) (h : Grown graph R first filled c c') :
    c.made.length ≤ c'.made.length := by
  rw [hc.made, h.sound.made]
  exact Nat.add_le_add_left h.registry.length_le first

/-- The copies that references lead to stay the same once they are all registered. -/
theorem image?_of_isPrefix (hregistry : c.registry <+: c'.registry) {r : Option ObjectId}
    (h : ∀ k, target? graph r = some k → (c.registered? k).isSome) :
    image? graph c' r = image? graph c r := by
  unfold image?
  cases hk : target? graph r with
  | none => rfl
  | some k =>
    obtain ⟨j, hj⟩ := Option.isSome_iff_exists.mp (h k hk)
    rw [Option.bind_some, Option.bind_some, hj, registered?_of_isPrefix hregistry hj]

/-- Finished copies stay finished while they are kept. -/
theorem Finished.mono (h : Finished graph c i j) (hregistry : c.registry <+: c'.registry)
    (hkept : c'.made[j]? = c.made[j]?) : Finished graph c' i j := by
  obtain ⟨⟨label, references, late, hpart, hcopy⟩, hclosed⟩ := h
  refine ⟨⟨label, references, late, hpart, ?_⟩, fun k hk => ?_⟩
  · rw [hkept, hcopy]
    refine congrArg (fun rs => some (Copy.mk label rs)) (List.map_congr_left fun r hr => ?_)
    exact (image?_of_isPrefix hregistry fun k hk =>
      hclosed k ⟨label, references, late, r, hpart, hr, hk⟩).symm
  · obtain ⟨l, hl⟩ := Option.isSome_iff_exists.mp (hclosed k hk)
    rw [registered?_of_isPrefix hregistry hl]
    rfl

/-- **Copying more keeps what has been copied**, where the copy that is filled in was there before. -/
theorem Grown.trans (hc : c.Sound R first) (h : Grown graph R first filled c c')
    (h' : Grown graph R first filled c' c'') (hfilled : ∀ k, filled = some k → k < c.made.length) :
    Grown graph R first filled c c'' := by
  have hle := h.made_le hc
  refine ⟨h'.sound, h.registry.trans h'.registry, fun k hk hne => ?_, fun p hp => ?_⟩
  · rw [h'.kept k (Nat.lt_of_lt_of_le hk hle) hne, h.kept k hk hne]
  · rcases h'.finished p hp with hp' | ⟨hnew, hfinished⟩
    · rcases h.finished p hp' with hold | ⟨hnew, hfinished⟩
      · exact .inl hold
      · refine .inr ⟨hnew, hfinished.mono h'.registry (h'.kept _ (h.sound.lt_made hp').2 ?_)⟩
        exact fun heq => absurd (hfilled _ heq) (Nat.not_lt.mpr hnew)
    · exact .inr ⟨Nat.le_trans hle hnew, hfinished⟩

/-- Growing without filling in anything is growing. -/
theorem Grown.weaken (h : Grown graph R first none c c') : Grown graph R first filled c c' :=
  ⟨h.sound, h.registry, fun k hk _ => h.kept k hk nofun, h.finished⟩

/-- Filling in one more reference. -/
theorem Grown.refer (hc : c.Sound R first) (j : CopyId) (r : Option CopyId) :
    Grown graph R first (some j) c (c.refer j r) := by
  refine ⟨hc.refer j r, List.prefix_rfl, fun k _ hne => ?_, fun p hp => .inl hp⟩
  rw [getElem?_refer, if_neg fun hjk => hne (congrArg some hjk)]

end Growth

section Growth

variable {graph : Graph} {R : ObjectId → Prop} {first : CopyId} {c c' : Copier} {i : ObjectId}
  {label : String}

/-- Once the copy of an object is finished, nothing that was there before has changed. -/
theorem Grown.closed (h : Grown graph R first (some c.made.length) (c.opened i label) c')
    (hfinished : Finished graph c' i c.made.length) : Grown graph R first none c c' := by
  refine ⟨h.sound, (List.prefix_append _ _).trans h.registry, fun k hk _ => ?_, fun p hp => ?_⟩
  · have hlt : k < (c.opened i label).made.length := by
      simp only [Copier.opened, List.length_append]
      omega
    have hne : some c.made.length ≠ some k := fun heq => by
      cases heq
      exact Nat.lt_irrefl _ hk
    rw [h.kept k hlt hne, Copier.opened, List.getElem?_append_left hk]
  · rcases h.finished p hp with hp | ⟨hnew, hp⟩
    · rcases List.mem_append.mp hp with hp | hp
      · exact .inl hp
      · rw [List.mem_singleton.mp hp]
        exact .inr ⟨Nat.le_refl _, hfinished⟩
    · refine .inr ⟨Nat.le_trans ?_ hnew, hp⟩
      simp only [Copier.opened, List.length_append]
      omega

end Growth

/-! ## 4. Copying -/

section Copying

variable {graph : Graph} {R : ObjectId → Prop} {first : CopyId} {bound : Nat} {c : Copier}

theorem copyWithin_absent (r : Option ObjectId) (h : target? graph r = none) :
    (copyWithin graph bound r).run c = (.ok none, c) := by
  match r with
  | none => cases bound <;> rfl
  | some i =>
    have hpart : graph.getD i .missing = .missing := by
      by_contra hne
      rw [target?_some hne] at h
      cases h
    cases bound <;> simp only [copyWithin, hpart] <;> rfl

/-- The copy of a registered object is the one that is registered. -/
theorem run_copyWithin_registered {i : ObjectId} {j : CopyId}
    (hi : target? graph (some i) = some i) (hj : c.registered? i = some j) :
    (copyWithin graph bound (some i)).run c = (.ok (some j), c) := by
  have hpart : graph.getD i .missing ≠ .missing := by
    intro hmissing
    rw [target?, Option.bind_some, hmissing] at hi
    cases hi
  cases hgraph : graph.getD i .missing with
  | missing => exact absurd hgraph hpart
  | fixed typeName => cases bound <;> simp only [copyWithin, hgraph, run_get_bind, hj] <;> rfl
  | object label references late =>
    cases bound <;> simp only [copyWithin, hgraph, run_get_bind, hj] <;> rfl

theorem copyWithin_registered {i : ObjectId} {j : CopyId} (hi : IsEarly graph i)
    (hj : c.registered? i = some j) :
    (copyWithin graph bound (some i)).run c = (.ok (some j), c) :=
  run_copyWithin_registered (target?_some hi.ne_missing) hj

/-- An object that is not registered gets a copy, which is registered and then filled in. -/
theorem copyWithin_new {i : ObjectId} {label : String} {references : List (Option ObjectId)}
    (hpart : graph.getD i .missing = .object label references false)
    (hnew : c.registered? i = none) {c' : Copier}
    (hfilled : (copyReferences (copyWithin graph bound) c.made.length references).run
      (c.opened i label) = (.ok (), c')) (hdone : (c'.registered? i).isSome = true) :
    (copyWithin graph (bound + 1) (some i)).run c = (.ok (some c.made.length), c') := by
  have hopened := register_addShell hnew label
  have hnone : (c'.registered? i).isNone = false := by
    rw [← Option.not_isSome, hdone]
    rfl
  simp only [copyWithin, hpart, run_get_bind, hnew, run_set_bind, Bool.false_eq_true, if_false,
    hopened]
  refine (run_bind_ok hfilled).trans ?_
  rw [run_get_bind, hnone]
  rfl

/-- What a call leaves: it gives the copy of what the reference leads to, which is registered. -/
def Copies (graph : Graph) (R : ObjectId → Prop) (first : CopyId) (bound : Nat) (c : Copier)
    (r : Option ObjectId) : Prop :=
  ∃ c', (copyWithin graph bound r).run c = (.ok (image? graph c' r), c') ∧
    Grown graph R first none c c' ∧ ∀ k, target? graph r = some k → (c'.registered? k).isSome

/-- **References are copied one after the other**, if each call copies. -/
theorem copyReferences_grown
    (hcopies : ∀ (c : Copier) (r : Option ObjectId), c.Sound R first →
      graph.length < bound + c.registry.length → (∀ k, target? graph r = some k → R k) →
        Copies graph R first bound c r) {j : CopyId} {label : String} :
    ∀ (references : List (Option ObjectId)) {c : Copier} {before : List (Option CopyId)},
      c.Sound R first → graph.length < bound + c.registry.length →
      (∀ r ∈ references, ∀ k, target? graph r = some k → R k) →
      c.made[j]? = some ⟨label, before⟩ →
        ∃ c', (copyReferences (copyWithin graph bound) j references).run c = (.ok (), c') ∧
          Grown graph R first (some j) c c' ∧
          (∀ r ∈ references, ∀ k, target? graph r = some k → (c'.registered? k).isSome) ∧
          c'.made[j]? = some ⟨label, before ++ references.map (image? graph c')⟩
  | [], c, before, hc, _, _, hj => ⟨c, rfl, .refl hc, by simp, by simpa using hj⟩
  | r :: references, c, before, hc, hbound, hR, hj => by
    have hlt : j < c.made.length := (List.getElem?_eq_some_iff.mp hj).1
    obtain ⟨c₁, hrun, hgrown, htarget⟩ := hcopies c r hc hbound (hR r List.mem_cons_self)
    -- The call has left the copy alone, and now it gets one more reference.
    have hj₁ : (c₁.refer j (image? graph c₁ r)).made[j]? =
        some ⟨label, before ++ [image? graph c₁ r]⟩ := by
      rw [getElem?_refer, if_pos rfl, hgrown.kept j hlt nofun, hj]
      rfl
    have hstep : Grown graph R first (some j) c (c₁.refer j (image? graph c₁ r)) :=
      hgrown.weaken.trans hc (.refer hgrown.sound j _) fun k hk => by
        cases hk
        exact hlt
    obtain ⟨c', hrest, hgrown', htargets, hj'⟩ := copyReferences_grown hcopies references
      hstep.sound (Nat.lt_of_lt_of_le hbound (Nat.add_le_add_left hstep.registry.length_le bound))
      (fun r' hr' => hR r' (List.mem_cons_of_mem r hr')) hj₁
    have himage : image? graph c' r = image? graph c₁ r :=
      image?_of_isPrefix hgrown'.registry htarget
    refine ⟨c', ?_, hstep.trans hc hgrown' fun k hk => by cases hk; exact hlt, ?_, ?_⟩
    · rw [copyReferences, run_bind_ok hrun, run_modify_bind, hrest]
    · intro r' hr' k hk
      rcases List.mem_cons.mp hr' with rfl | hr'
      · obtain ⟨l, hl⟩ := Option.isSome_iff_exists.mp (htarget k hk)
        rw [registered?_of_isPrefix hgrown'.registry hl]
        rfl
      · exact htargets r' hr' k hk
    · rw [hj', List.map_cons, himage, List.append_assoc]
      rfl

/-- **Every call copies**, as long as the bound exceeds the number of objects that are not registered.
An object that is registered already has its copy; any other one gets one, and its references are
copied within a smaller bound. -/
theorem copyWithin_copies (hearly : ∀ i, R i → IsEarly graph i)
    (hclosed : ∀ i k, R i → Refers graph i k → R k) :
    ∀ (bound : Nat) (c : Copier) (r : Option ObjectId), c.Sound R first →
      graph.length < bound + c.registry.length → (∀ k, target? graph r = some k → R k) →
        Copies graph R first bound c r
  | 0, c, r, hc, hbound, _ => by
    rw [Nat.zero_add] at hbound
    exact absurd (hc.length_le hearly) (Nat.not_le.mpr hbound)
  | bound + 1, c, r, hc, hbound, hR => by
    cases htarget : target? graph r with
    | none =>
      refine ⟨c, ?_, .refl hc, by simp [htarget]⟩
      rw [copyWithin_absent r htarget, image?, htarget]
      rfl
    | some i =>
      obtain ⟨label, references, hpart⟩ := hearly i (hR i htarget)
      have hi : IsEarly graph i := ⟨label, references, hpart⟩
      obtain rfl := eq_of_target? htarget
      have himage : ∀ c' : Copier, image? graph c' (some i) = c'.registered? i := fun c' => by
        rw [image?, htarget]
        rfl
      cases hregistered : c.registered? i with
      | some j =>
        refine ⟨c, ?_, .refl hc, ?_⟩
        · rw [copyWithin_registered hi hregistered, himage, hregistered]
        · rintro k hk
          rw [htarget] at hk
          cases hk
          rw [hregistered]
          rfl
      | none =>
        have hopened := hc.opened (hR i htarget) hregistered label
        have hrefers : ∀ r ∈ references, ∀ k, target? graph r = some k → Refers graph i k :=
          fun r hr k hk => ⟨label, references, false, r, hpart, hr, hk⟩
        have hshell : (c.opened i label).made[c.made.length]? = some ⟨label, []⟩ := by
          simp [Copier.opened]
        obtain ⟨c', hrun, hgrown, htargets, hcopy⟩ :=
          copyReferences_grown (copyWithin_copies hearly hclosed bound) references hopened
            (by simp only [Copier.opened, List.length_append, List.length_singleton]; omega)
            (fun r hr k hk => hclosed i k (hR i htarget) (hrefers r hr k hk)) hshell
        have hentry : (i, c.made.length) ∈ c'.registry :=
          hgrown.registry.subset (List.mem_append_right _ List.mem_cons_self)
        have hdone := hgrown.sound.registered? hentry
        refine ⟨c', ?_, ?_, ?_⟩
        · rw [copyWithin_new hpart hregistered hrun (by rw [hdone]; rfl), himage, hdone]
        · exact hgrown.closed ⟨⟨label, references, false, hpart, by simpa using hcopy⟩,
            by
              rintro k ⟨label', references', late, r, hpart', hr, hk⟩
              rw [hpart] at hpart'
              cases hpart'
              exact htargets r hr k hk⟩
        · rintro k hk
          rw [htarget] at hk
          cases hk
          rw [hdone]
          rfl

end Copying

/-! ## 5. A pass of its own -/

/-- The copy of an object, once it is registered. -/
def imageOf (c : Copier) (i : ObjectId) : CopyId := (c.registered? i).getD 0

/-- A pass that is over: what is registered is what can be reached, and all copies are finished. -/
structure Complete (graph : Graph) (start : ObjectId) (first : CopyId) (c : Copier) : Prop where
  sound : c.Sound (Reaches graph start) first
  started : (c.registered? start).isSome
  finished : ∀ p ∈ c.registry, Finished graph c p.1 p.2

theorem length_lt_pathBound (graph : Graph) : graph.length < pathBound graph :=
  Nat.lt_of_lt_of_le (Nat.lt_succ_self _) (Nat.le_mul_of_pos_left _ (Nat.succ_pos _))

namespace Complete

variable {graph : Graph} {start : ObjectId} {first : CopyId} {c : Copier} {i k : ObjectId}

/-- What has been reached is registered, since it is referred to by what is registered. -/
theorem registered (h : c.Complete graph start first) (hi : Reaches graph start i) :
    (i, c.imageOf i) ∈ c.registry := by
  have hsome : (c.registered? i).isSome := by
    induction hi with
    | refl => exact h.started
    | tail _ hrefers ih =>
      obtain ⟨j, hj⟩ := Option.isSome_iff_exists.mp ih
      exact (h.finished _ (mem_of_registered? hj)).closed _ hrefers
  obtain ⟨j, hj⟩ := Option.isSome_iff_exists.mp hsome
  have hmem := mem_of_registered? hj
  rwa [imageOf, hj, Option.getD_some]

theorem registered?_eq (h : c.Complete graph start first) (hi : Reaches graph start i) :
    c.registered? i = some (c.imageOf i) := h.sound.registered? (h.registered hi)

theorem imageOf_injective (h : c.Complete graph start first) (hi : Reaches graph start i)
    (hk : Reaches graph start k) (heq : c.imageOf i = c.imageOf k) : i = k := by
  have hnodup : (c.registry.map (·.2)).Nodup := by
    rw [h.sound.ordered]
    exact List.nodup_range'
  exact congrArg Prod.fst
    (List.inj_on_of_nodup_map hnodup (h.registered hi) (h.registered hk) heq)

theorem getElem?_imageOf (h : c.Complete graph start first) (hi : Reaches graph start i)
    {label : String} {references : List (Option ObjectId)} {late : Bool}
    (hpart : graph.getD i .missing = .object label references late) :
    c.made[c.imageOf i]? = some ⟨label, references.map fun r => (target? graph r).map c.imageOf⟩ := by
  obtain ⟨label', references', late', hpart', hcopy⟩ := (h.finished _ (h.registered hi)).copied
  rw [hpart] at hpart'
  cases hpart'
  rw [hcopy]
  refine congrArg (fun rs => some (Copy.mk label rs)) (List.map_congr_left fun r hr => ?_)
  cases hk : target? graph r with
  | none => rw [image?, hk]; rfl
  | some k =>
    have hreached : Reaches graph start k := hi.tail ⟨label, references, late, r, hpart, hr, hk⟩
    rw [image?, hk, Option.bind_some, h.registered?_eq hreached]
    rfl

theorem exists_imageOf_iff (h : c.Complete graph start first) (j : CopyId) :
    (∃ i, Reaches graph start i ∧ c.imageOf i = j) ↔ first ≤ j ∧ j < c.made.length := by
  constructor
  · rintro ⟨i, hi, rfl⟩
    exact h.sound.lt_made (h.registered hi)
  · intro hj
    have hmem : j ∈ c.registry.map (·.2) := by
      rwa [h.sound.ordered, List.mem_range'_1, ← h.sound.made]
    obtain ⟨p, hp, rfl⟩ := List.mem_map.mp hmem
    exact ⟨p.1, h.sound.within p hp, by rw [imageOf, h.sound.registered? hp, Option.getD_some]⟩

theorem size_eq (h : c.Complete graph start first) :
    c.size = {i | Reaches graph start i}.ncard := by
  have hset : {i | Reaches graph start i} = ((c.registry.map (·.1)).toFinset : Set ObjectId) := by
    ext i
    rw [Set.mem_ofPred_eq, Finset.mem_coe, List.mem_toFinset]
    constructor
    · exact fun hi => List.mem_map_of_mem (h.registered hi)
    · intro hi
      obtain ⟨p, hp, rfl⟩ := List.mem_map.mp hi
      exact h.sound.within p hp
  rw [hset, Set.ncard_coe_finset, List.toFinset_card_of_nodup h.sound.distinct, List.length_map,
    size]

end Complete

/-- Copying an object in a pass of its own completes the pass. -/
theorem copy_complete {graph : Graph} {start : ObjectId} {c : Copier} (hfresh : c.registry = [])
    (hearly : ∀ i, Reaches graph start i → IsEarly graph i) :
    ∃ c', (copy graph (some start)).run c = (.ok (some (c'.imageOf start)), c') ∧
      c.made <+: c'.made ∧ c'.Complete graph start c.made.length := by
  have hsound : c.Sound (Reaches graph start) c.made.length := by
    refine ⟨?_, ?_, ?_, ?_⟩ <;> simp [hfresh]
  have hstart : target? graph (some start) = some start :=
    target?_some (hearly start .refl).ne_missing
  obtain ⟨c', hrun, hgrown, htarget⟩ := copyWithin_copies hearly (fun _ _ => .tail)
    (pathBound graph) c (some start) hsound
    (Nat.lt_of_lt_of_le (length_lt_pathBound graph) (Nat.le_add_right _ _)) fun k hk => by
      rw [hstart] at hk
      cases hk
      exact .refl
  have hcomplete : c'.Complete graph start c.made.length := by
    refine ⟨hgrown.sound, htarget start hstart, fun p hp => ?_⟩
    rcases hgrown.finished p hp with hold | ⟨-, hfinished⟩
    · rw [hfresh] at hold
      cases hold
    · exact hfinished
  refine ⟨c', ?_, List.prefix_iff_getElem?.mpr fun k hk => ?_, hcomplete⟩
  · rw [copy, hrun, image?, hstart, Option.bind_some, hcomplete.registered?_eq .refl]
  · rw [hgrown.kept k hk nofun, List.getElem?_eq_getElem hk]

/-- **Copying an object in a pass of its own ends with an isomorphic copy of all that can be reached
from it**, if all these objects register their copies early.  Sharing and cycles are kept:

* the copies of different objects are different, and each has the label of its origin and references
  to the copies of what its origin refers to, in the same places; a reference to nothing stays one;
* the copies are those that have been made in this pass, one for each object reached, and the copies
  made before are left alone;
* afterwards as many objects are registered as can be reached, and copying one of them again gives
  the copy that there is, and changes nothing. -/
theorem copy_isomorphic {graph : Graph} {start : ObjectId} {c : Copier} (hfresh : c.registry = [])
    (hearly : ∀ i, Reaches graph start i → IsEarly graph i) :
    ∃ (c' : Copier) (image : ObjectId → CopyId),
      (copy graph (some start)).run c = (.ok (some (image start)), c') ∧
      (∀ i k, Reaches graph start i → Reaches graph start k → image i = image k → i = k) ∧
      (∀ i, Reaches graph start i → ∀ label references late,
        graph.getD i .missing = .object label references late →
          c'.made[image i]? =
            some ⟨label, references.map fun r => (target? graph r).map image⟩) ∧
      (∀ j, (∃ i, Reaches graph start i ∧ image i = j) ↔
        c.made.length ≤ j ∧ j < c'.made.length) ∧
      c.made <+: c'.made ∧
      c'.size = {i | Reaches graph start i}.ncard ∧
      ∀ i, Reaches graph start i →
        (copy graph (some i)).run c' = (.ok (some (image i)), c') := by
  obtain ⟨c', hrun, hmade, hcomplete⟩ := copy_complete hfresh hearly
  refine ⟨c', c'.imageOf, hrun, fun i k => hcomplete.imageOf_injective, ?_,
    hcomplete.exists_imageOf_iff, hmade, hcomplete.size_eq, ?_⟩
  · exact fun i hi label references late => hcomplete.getElem?_imageOf hi
  · exact fun i hi => copyWithin_registered (hearly i hi) (hcomplete.registered?_eq hi)

/-- Three objects that refer to each other in a circle, two of them to the third one, and an object
apart that would register late. -/
def knot : Graph :=
  [.object "first" [some 1, none, some 2] false, .object "second" [some 2, some 0] false,
    .object "third" [some 0] false, .object "apart" [some 3] true]

theorem knot_refers {i k : ObjectId} (hi : i < 3) (h : Refers knot i k) : k < 3 := by
  obtain ⟨label, references, late, r, hpart, hr, hk⟩ := h
  obtain rfl := eq_of_target? hk
  have hall : ∀ i < 3, ∃ label references, knot.getD i .missing = .object label references false ∧
      ∀ k, some k ∈ references → k < 3 := by
    intro i hi
    match i, hi with
    | 0, _ => exact ⟨_, _, rfl, by simp⟩
    | 1, _ => exact ⟨_, _, rfl, by simp⟩
    | 2, _ => exact ⟨_, _, rfl, by simp⟩
  obtain ⟨label', references', hpart', hbound⟩ := hall i hi
  rw [hpart] at hpart'
  cases hpart'
  exact hbound k hr

/-- The three objects are copied as they stand, and the third one is copied once. -/
theorem copy_knot : ({} : Copier).registry = [] ∧ (∀ i, Reaches knot 0 i → IsEarly knot i) ∧
    ∃ (c : Copier) (image : ObjectId → CopyId),
      (copy knot (some 0)).run {} = (.ok (some (image 0)), c) ∧
      image 0 ≠ image 1 ∧ image 1 ≠ image 2 ∧ image 2 ≠ image 0 ∧
      c.made[image 0]? = some ⟨"first", [some (image 1), none, some (image 2)]⟩ ∧
      c.made[image 1]? = some ⟨"second", [some (image 2), some (image 0)]⟩ ∧
      c.made[image 2]? = some ⟨"third", [some (image 0)]⟩ ∧
      (copy knot (some 2)).run c = (.ok (some (image 2)), c) := by
  have hearly : ∀ i, Reaches knot 0 i → IsEarly knot i := by
    intro i hi
    have hlt : i < 3 := by
      induction hi with
      | refl => decide
      | tail _ hrefers ih => exact knot_refers ih hrefers
    match i, hlt with
    | 0, _ => exact ⟨_, _, rfl⟩
    | 1, _ => exact ⟨_, _, rfl⟩
    | 2, _ => exact ⟨_, _, rfl⟩
  have h0 : Reaches knot 0 0 := .refl
  have h1 : Reaches knot 0 1 := .single ⟨_, _, _, some 1, rfl, by simp, rfl⟩
  have h2 : Reaches knot 0 2 := .single ⟨_, _, _, some 2, rfl, by simp, rfl⟩
  obtain ⟨c, image, hrun, hinjective, hcopies, -, -, -, hagain⟩ :=
    copy_isomorphic (c := {}) rfl hearly
  refine ⟨rfl, hearly, c, image, hrun, ?_, ?_, ?_, hcopies 0 h0 _ _ _ rfl, hcopies 1 h1 _ _ _ rfl,
    hcopies 2 h2 _ _ _ rfl, hagain 2 h2⟩
  · exact fun h => absurd (hinjective 0 1 h0 h1 h) (by decide)
  · exact fun h => absurd (hinjective 1 2 h1 h2 h) (by decide)
  · exact fun h => absurd (hinjective 2 0 h2 h0 h) (by decide)

end Copier
end FormulaEvolution
