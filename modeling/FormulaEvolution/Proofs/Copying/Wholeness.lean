/-
# Whole copies

What the copies look like that a pass has made.  A copy gets the copies of the references of its object
one by one, and nothing else is done to it; so it is whole exactly if the request that has begun it has
ended well (`Copier.Pass.whole_iff`).  A request that breaks off leaves a copy with too few references
behind, and nothing mends it: calls never go on with a copy, they begin one or find one.
-/
import FormulaEvolution.Proofs.Copying.Requests

namespace FormulaEvolution
namespace Copier

/-! ## 1. What is left alone -/

/-- The copy that a task gives references to. -/
def Task.filled? : Task → Option CopyId
  | one _ => none
  | all j _ => some j

section Keeping

variable {graph : Graph} {bound : Nat} {task : Task} {c c' : Copier} {log : List Request}
  {result : Except Failure (Option CopyId)} {i : ObjectId} {j k : CopyId}

theorem getElem?_made_started (hk : k < c.made.length) (i : ObjectId) (label : String)
    (late : Bool) : (c.started i label late).made[k]? = c.made[k]? := List.getElem?_append_left hk

theorem getElem?_made_started_self (c : Copier) (i : ObjectId) (label : String) (late : Bool) :
    (c.started i label late).made[c.made.length]? = some ⟨label, []⟩ := by
  rw [started, List.getElem?_concat_length]

theorem lt_made_started (references : List (Option ObjectId)) (i : ObjectId) (label : String)
    (late : Bool) (hk : (Task.all c.made.length references).filled? = some k) :
    k < (c.started i label late).made.length := by
  cases hk
  rw [length_made_started]
  exact Nat.lt_succ_self _

theorem Performed.length_made_le (h : Performed graph bound task c log result c') :
    c.made.length ≤ c'.made.length := h.numbered.1 ▸ Nat.le_add_right _ _

/-- Copies that were there before are left alone, but for the one that is given references. -/
theorem Performed.kept (h : Performed graph bound task c log result c') (hk : k < c.made.length)
    (hne : task.filled? ≠ some k) : c'.made[k]? = c.made[k]? := by
  induction h with
  | absent | found | refused | endless | done => rfl
  | @copied _ c c' i label _ late _ _ _ _ ih =>
    have hlt : k < (c.started i label late).made.length :=
      length_made_started .. ▸ Nat.lt_succ_of_lt hk
    rw [made_settled, ih hlt fun heq => Nat.ne_of_gt hk (Option.some.inj heq),
      getElem?_made_started hk]
  | @broken _ c c' i label _ late _ _ _ _ _ ih =>
    have hlt : k < (c.started i label late).made.length :=
      length_made_started .. ▸ Nat.lt_succ_of_lt hk
    rw [ih hlt fun heq => Nat.ne_of_gt hk (Option.some.inj heq), getElem?_made_started hk]
  | @next _ j _ _ c c₁ _ copy _ _ _ h _ ih ih' =>
    have hlt : k < (c₁.refer j copy).made.length := by
      rw [length_made_refer]
      exact Nat.lt_of_lt_of_le hk h.length_made_le
    rw [ih' hlt hne, getElem?_refer, if_neg fun heq => hne (congrArg some heq), ih hk nofun]
  | stopped _ ih => exact ih hk nofun

end Keeping

/-! ## 2. What a copy is given -/

/-- A copy of what a reference leads to, or nothing if it leads to nothing. -/
def Matches (graph : Graph) (known : ObjectId → CopyId → Prop) (r : Option ObjectId)
    (copy : Option CopyId) : Prop := Option.Rel known (target? graph r) copy

/-- A copy that has been registered before or begun since. -/
def Known (c : Copier) (log : List Request) (i : ObjectId) (j : CopyId) : Prop :=
  (i, j) ∈ c.registry ∨ Began log i j

section Given

variable {graph : Graph} {bound : Nat} {task : Task} {c c' : Copier} {log : List Request}
  {result : Except Failure (Option CopyId)} {i : ObjectId} {j : CopyId}
  {known known' : ObjectId → CopyId → Prop}

theorem Matches.mono {r : Option ObjectId} {copy : Option CopyId} (h : Matches graph known r copy)
    (hknown : ∀ i j, known i j → known' i j) : Matches graph known' r copy := by
  unfold Matches at *
  generalize target? graph r = target at *
  cases h with
  | some h => exact .some (hknown _ _ h)
  | none => exact .none

theorem Known.append_left (h : Known c log i j) (log' : List Request) :
    Known c (log ++ log') i j := h.imp_right fun h => began_append.mpr (.inl h)

/-- What is known after a task has been known before, or has been begun in it. -/
theorem Performed.known_append {log' : List Request}
    (h : Performed graph bound task c log result c') (hknown : Known c' log' i j) : Known c (log ++ log') i j := by
  rcases hknown with hmem | hbegan
  · rcases h.mem_registry hmem with hmem | hsourced
    · exact .inl hmem
    · exact .inr (began_append.mpr (.inl hsourced.began))
  · exact .inr (began_append.mpr (.inr hbegan))

/-- What a call gives is a copy of what has been asked for. -/
theorem Performed.matches_answer (h : Performed graph bound task c log result c')
    {r : Option ObjectId} (htask : task = .one r) {copy : Option CopyId} (hok : result = .ok copy) :
    Matches graph (Known c log) r copy := by
  unfold Matches
  cases h with
  | absent htarget =>
    cases htask
    cases hok
    rw [htarget]
    exact .none
  | found hi hj =>
    cases htask
    cases hok
    rw [hi]
    exact .some (.inl (mem_of_registered? hj))
  | copied hpart =>
    cases htask
    cases hok
    rw [target?_object hpart]
    exact .some (.inr ⟨_, _, List.mem_cons_self⟩)
  | refused | endless | broken | stopped => cases hok
  | done | next => cases htask

/-- References given to a copy: one for each of those it should have, or fewer if that has failed. -/
def Given (graph : Graph) (known : ObjectId → CopyId → Prop) (references : List (Option ObjectId))
    (copies : List (Option CopyId)) (failed : Prop) : Prop :=
  (¬failed → List.Forall₂ (Matches graph known) references copies) ∧
    (failed → copies.length < references.length)

/-- **A copy is given the copies of references, one after the other.** -/
theorem Performed.given (h : Performed graph bound task c log result c')
    {references : List (Option ObjectId)} (htask : task = .all j references)
    {label : String} {before : List (Option CopyId)} (hj : c.made[j]? = some ⟨label, before⟩) :
    ∃ copies, c'.made[j]? = some ⟨label, before ++ copies⟩ ∧
      Given graph (Known c log) references copies (∃ failure, result = .error failure) := by
  induction h generalizing references before with
  | absent | found | refused | endless | copied | broken => cases htask
  | done =>
    cases htask
    refine ⟨[], by rwa [List.append_nil], fun _ => .nil, ?_⟩
    rintro ⟨_, hfailed⟩
    cases hfailed
  | @next _ _ r rest c c₁ _ copy log log' result h h' _ ih' =>
    cases htask
    have hlt : j < c.made.length := (List.getElem?_eq_some_iff.mp hj).1
    have hj₁ : (c₁.refer j copy).made[j]? = some ⟨label, before ++ [copy]⟩ := by
      rw [getElem?_refer, if_pos rfl, h.kept hlt nofun, hj]
      rfl
    obtain ⟨copies, hcopies, hwell, hfailed⟩ := ih' rfl hj₁
    refine ⟨copy :: copies, by rw [hcopies, List.append_assoc]; rfl, fun hok => ?_, fun herror => ?_⟩
    · exact .cons ((h.matches_answer rfl rfl).mono fun _ _ hk => hk.append_left log')
        ((hwell hok).imp fun _ _ hmatch => hmatch.mono fun _ _ hk => h.known_append hk)
    · rw [List.length_cons, List.length_cons]
      exact Nat.succ_lt_succ (hfailed herror)
  | stopped h =>
    cases htask
    have hlt := (List.getElem?_eq_some_iff.mp hj).1
    refine ⟨[], by rw [h.kept hlt nofun, hj, List.append_nil], fun hok => absurd ⟨_, rfl⟩ hok, ?_⟩
    exact fun _ => Nat.zero_lt_succ _

end Given

/-! ## 3. Whole copies -/

/-- What has been made of an object: a copy that was given references. -/
def Built (graph : Graph) (known : ObjectId → CopyId → Prop) (c : Copier) (i : ObjectId)
    (j : CopyId) (failed : Prop) : Prop :=
  ∃ label references late copies, graph.getD i .missing = .object label references late ∧
    c.made[j]? = some ⟨label, copies⟩ ∧ Given graph known references copies failed

/-- A copy is whole: it has the label of its object, and for each reference of its object one to a copy
that has been begun of what that leads to, or to nothing if it leads to nothing. -/
def Whole (graph : Graph) (log : List Request) (c : Copier) (i : ObjectId) (j : CopyId) : Prop :=
  ∃ label references late copies, graph.getD i .missing = .object label references late ∧
    c.made[j]? = some ⟨label, copies⟩ ∧ List.Forall₂ (Matches graph (Began log)) references copies

section Building

variable {graph : Graph} {bound : Nat} {task : Task} {c c' : Copier} {log : List Request}
  {result : Except Failure (Option CopyId)} {i : ObjectId} {j : CopyId} {failed : Prop}
  {known known' : ObjectId → CopyId → Prop}

theorem Built.mono (h : Built graph known c i j failed) (hknown : ∀ i j, known i j → known' i j)
    (hkept : c'.made[j]? = c.made[j]?) : Built graph known' c' i j failed := by
  obtain ⟨label, references, late, copies, hpart, hcopy, hwell, hshort⟩ := h
  refine ⟨label, references, late, copies, hpart, hkept.trans hcopy, fun hok => ?_, hshort⟩
  exact (hwell hok).imp fun _ _ hmatch => hmatch.mono hknown

theorem Built.whole_iff (h : Built graph (Began log) c i j failed) :
    Whole graph log c i j ↔ ¬failed := by
  obtain ⟨label, references, late, copies, hpart, hcopy, hwell, hshort⟩ := h
  constructor
  · rintro ⟨label', references', late', copies', hpart', hcopy', hall⟩ hfailed
    rw [hpart] at hpart'
    rw [hcopy] at hcopy'
    cases hpart'
    cases hcopy'
    exact Nat.ne_of_gt (hshort hfailed) hall.length_eq
  · exact fun hok => ⟨label, references, late, copies, hpart, hcopy, hwell hok⟩

/-- What is known while references are copied is known afterwards. -/
theorem known_begun {label : String} {references : List (Option ObjectId)} {late : Bool}
    {failure? : Option Failure} (hpart : graph.getD i .missing = .object label references late)
    (course : List ObjectId) (k : ObjectId) (l : CopyId)
    (h : Known (c.started i label late) log k l) :
    Known c (.begun i c.made.length course failure? :: log) k l := by
  rcases h with hk | hk
  · rcases mem_registry_started hpart hk with hk | ⟨heq, -⟩
    · exact .inl hk
    · cases heq
      exact .inr ⟨_, _, List.mem_cons_self⟩
  · exact .inr (began_begun.mpr (.inr hk))

/-- **What is made of an object, for each request that has begun a copy**: a whole copy if the request
has ended well. -/
theorem Performed.built (h : Performed graph bound task c log result c')
    (hfilled : ∀ k, task.filled? = some k → k < c.made.length) {course : List ObjectId}
    {failure? : Option Failure} (hbegun : .begun i j course failure? ∈ log) :
    Built graph (Known c log) c' i j (failure? ≠ none) := by
  induction h with
  | absent | done => cases hbegun
  | found | refused | endless => simp at hbegun
  | copied hpart _ h ih =>
    rcases List.mem_cons.mp hbegun with heq | hbegun
    · cases heq
      obtain ⟨copies, hcopies, hwell, hshort⟩ := h.given rfl (getElem?_made_started_self ..)
      refine ⟨_, _, _, copies, hpart, by rwa [made_settled], fun _ => ?_, nofun⟩
      have hok : ¬∃ failure, (.ok none : Except Failure (Option CopyId)) = .error failure := nofun
      exact (hwell hok).imp fun _ _ hmatch => hmatch.mono (known_begun hpart _)
    · exact (ih (fun _ hk => lt_made_started _ _ _ _ hk) hbegun).mono (known_begun hpart _)
        (by rw [made_settled])
  | broken hpart _ h ih =>
    rcases List.mem_cons.mp hbegun with heq | hbegun
    · cases heq
      obtain ⟨copies, hcopies, hwell, hshort⟩ := h.given rfl (getElem?_made_started_self ..)
      exact ⟨_, _, _, copies, hpart, hcopies, fun hne => absurd nofun hne,
        fun _ => hshort ⟨_, rfl⟩⟩
    · exact (ih (fun _ hk => lt_made_started _ _ _ _ hk) hbegun).mono (known_begun hpart _) rfl
  | @next _ j' _ _ c c₁ _ copy log log' _ h h' ih ih' =>
    have hle := h.length_made_le
    have hfilled₁ : ∀ k, some j' = some k → k < (c₁.refer j' copy).made.length := fun k hk => by
      rw [length_made_refer]
      exact Nat.lt_of_lt_of_le (hfilled k hk) hle
    rcases List.mem_append.mp hbegun with hbegun | hbegun
    · -- The copy has been begun since, so it is not the one that is given references.
      have hbegan : Began log i j := ⟨_, _, hbegun⟩
      have hne : j' ≠ j := fun heq =>
        Nat.not_lt.mpr (h.numbered.2.le hbegan) (hfilled j (congrArg some heq))
      have hlt : j < c₁.made.length := h.numbered.1 ▸ h.numbered.2.lt hbegan
      refine (ih nofun hbegun).mono (fun _ _ hk => hk.append_left log') ?_
      rw [h'.kept (by rwa [length_made_refer]) fun heq => hne (Option.some.inj heq),
        getElem?_refer, if_neg hne]
    · exact (ih' hfilled₁ hbegun).mono (fun _ _ hk => h.known_append hk) rfl
  | stopped _ ih => exact ih nofun hbegun

theorem Pass.built {first : CopyId} (h : Pass graph first log c) {course : List ObjectId}
    {failure? : Option Failure} (hbegun : .begun i j course failure? ∈ log) :
    Built graph (Began log) c i j (failure? ≠ none) := by
  induction h with
  | start => cases hbegun
  | call h h' ih =>
    rcases List.mem_append.mp hbegun with hbegun | hbegun
    · have hlt := h.numbered.2.lt ⟨_, _, hbegun⟩
      rw [← h.numbered.1] at hlt
      exact (ih hbegun).mono (fun _ _ hk => began_append.mpr (.inl hk)) (h'.kept hlt nofun)
    · refine (h'.built nofun hbegun).mono ?_ rfl
      rintro k l (hk | hk)
      · exact began_append.mpr (.inl (h.sourced hk).began)
      · exact began_append.mpr (.inr hk)

/-- **A copy is whole exactly if the request that has begun it has ended well.** -/
theorem Pass.whole_iff {first : CopyId} (h : Pass graph first log c) {course : List ObjectId}
    {failure? : Option Failure} (hbegun : .begun i j course failure? ∈ log) :
    Whole graph log c i j ↔ failure? = none := by
  rw [(h.built hbegun).whole_iff, not_not]

end Building

end Copier
end FormulaEvolution
