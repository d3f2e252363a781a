/-
# Sequences that may fail

What a sequence of steps has done when it succeeds, sequences that succeed and fail alike, and
sequences that work on a state.
-/
import FormulaEvolution.Failure
import Mathlib.Data.List.Forall2

namespace FormulaEvolution

/-- Of two lists side by side, each item of the second one stands beside one of the first. -/
theorem exists_of_forall₂ {α β : Type} {R : α → β → Prop} {b : β} :
    ∀ {as : List α} {bs : List β}, List.Forall₂ R as bs → b ∈ bs → ∃ a ∈ as, R a b
  | [], [], .nil, hb => absurd hb List.not_mem_nil
  | a :: as, b' :: bs, .cons hR hRs, hb => by
    rcases List.mem_cons.mp hb with rfl | hb
    · exact ⟨a, List.mem_cons_self, hR⟩
    · obtain ⟨a', ha', hR'⟩ := exists_of_forall₂ hRs hb
      exact ⟨a', List.mem_cons_of_mem a ha', hR'⟩

theorem forall₂_imp_of_mem {α β : Type} {R S : α → β → Prop} : ∀ {as : List α} {bs : List β},
    List.Forall₂ R as bs → (∀ a b, a ∈ as → b ∈ bs → R a b → S a b) → List.Forall₂ S as bs
  | [], [], .nil, _ => .nil
  | _ :: _, _ :: _, .cons hR hRs, h =>
    .cons (h _ _ List.mem_cons_self List.mem_cons_self hR)
      (forall₂_imp_of_mem hRs fun a b ha hb =>
        h a b (List.mem_cons_of_mem _ ha) (List.mem_cons_of_mem _ hb))

theorem forall₂_trans {α β γ : Type} {R : α → β → Prop} {S : β → γ → Prop} {T : α → γ → Prop}
    (hT : ∀ a b c, R a b → S b c → T a c) : ∀ {as : List α} {bs : List β} {cs : List γ},
      List.Forall₂ R as bs → List.Forall₂ S bs cs → List.Forall₂ T as cs
  | _, _, _, .nil, .nil => .nil
  | _, _, _, .cons hR hRs, .cons hS hSs => .cons (hT _ _ _ hR hS) (forall₂_trans hT hRs hSs)

/-- A list beside one that is split is split as well. -/
theorem split_of_forall₂ {α β : Type} {R : α → β → Prop} {y : β} {as : List α} {xs ys : List β}
    (h : List.Forall₂ R as (xs ++ y :: ys)) : ∃ before a after, as = before ++ a :: after ∧
      List.Forall₂ R before xs ∧ R a y ∧ List.Forall₂ R after ys := by
  induction xs generalizing as with
  | nil =>
    cases h with
    | cons hR hRs => exact ⟨[], _, _, rfl, .nil, hR, hRs⟩
  | cons x xs ih =>
    cases h with
    | cons hR hRs =>
      obtain ⟨before, a, after, rfl, hbefore, ha, hafter⟩ := ih hRs
      exact ⟨_ :: before, a, after, rfl, .cons hR hbefore, ha, hafter⟩

/-- The member of an index comes with the members before it and those after it. -/
theorem split_of_getElem? {α : Type} {c : α} : ∀ {cs : List α} {i : Nat}, cs[i]? = some c →
    ∃ before after, cs = before ++ c :: after ∧ before.length = i
  | [], _, h => by simp at h
  | d :: cs, 0, h => ⟨[], cs, by simpa using h, rfl⟩
  | d :: cs, i + 1, h => by
    obtain ⟨before, after, rfl, rfl⟩ := split_of_getElem? (by simpa using h : cs[i]? = some c)
    exact ⟨d :: before, after, rfl, rfl⟩

theorem eraseIdx_split {α : Type} {c : α} {after : List α} : ∀ before : List α,
    (before ++ c :: after).eraseIdx before.length = before ++ after
  | [] => rfl
  | d :: before => by
    simp only [List.cons_append, List.length_cons, List.eraseIdx_cons_succ, eraseIdx_split before]

theorem set_split {α : Type} {c d : α} {after : List α} (before : List α) :
    (before ++ c :: after).set before.length d = before ++ d :: after := by
  rw [List.set_append_right _ _ (Nat.le_refl _), Nat.sub_self, List.set_cons_zero]

theorem idxOf?_split {c : Nat} {after : List Nat} : ∀ {before : List Nat}, c ∉ before →
    (before ++ c :: after).idxOf? c = some before.length
  | [], _ => by rw [List.nil_append, List.idxOf?_cons, if_pos (beq_self_eq_true c), List.length_nil]
  | d :: before, h => by
    rw [List.mem_cons, not_or] at h
    obtain ⟨hne, hrest⟩ := h
    rw [List.cons_append, List.idxOf?_cons, if_neg (by simpa using Ne.symm hne), idxOf?_split hrest]
    rfl

/-- A place of an insertion comes with the members before it and those after it. -/
theorem split_of_insertIdx {α : Type} (c : α) : ∀ {cs : List α} {i : Nat}, i ≤ cs.length →
    ∃ before after, cs = before ++ after ∧ cs.insertIdx i c = before ++ c :: after
  | cs, 0, _ => ⟨[], cs, rfl, List.insertIdx_zero⟩
  | d :: cs, i + 1, h => by
    obtain ⟨before, after, rfl, hinsert⟩ := split_of_insertIdx c (Nat.le_of_succ_le_succ h)
    exact ⟨d :: before, after, rfl, by rw [List.insertIdx_succ_cons, hinsert, List.cons_append]⟩

/-- A sequence has succeeded if both of its parts have. -/
theorem Except.bind_ok {ε α β : Type} {first : Except ε α} {next : α → Except ε β} {b : β}
    (h : (first >>= next) = .ok b) : ∃ a, first = .ok a ∧ next a = .ok b := by
  cases first with
  | error failure => cases h
  | ok a => exact ⟨a, rfl, h⟩

theorem Except.ok_of_toBool {ε α : Type} {result : Except ε α} (h : result.toBool = true) :
    ∃ a, result = .ok a := by
  cases result with
  | error failure => cases h
  | ok a => exact ⟨a, rfl⟩

theorem Except.eq_ok_of_toBool {ε : Type} {result : Except ε Unit} (h : result.toBool = true) :
    result = .ok () := (Except.ok_of_toBool h).choose_spec

/-- A sequence of checks succeeds if all of them do. -/
theorem Except.then_ok_iff {ε : Type} {first : Except ε Unit} {next : Unit → Except ε Unit} :
    (first >>= next) = .ok () ↔ first = .ok () ∧ next () = .ok () := by
  cases first with
  | error failure => simp [bind, Except.bind]
  | ok _ => simp [bind, Except.bind]

/-- Refusing when a condition holds, and going on otherwise. -/
theorem Except.refuse_ok_iff {ε α : Type} {c : Prop} [Decidable c] {failure : ε}
    {next : Unit → Except ε α} {a : α} :
    (if c then throw failure >>= next else next ()) = .ok a ↔ ¬c ∧ next () = .ok a := by
  by_cases hc : c
  · rw [if_pos hc]
    simp only [hc, not_true_eq_false, false_and, iff_false]
    rintro ⟨⟩
  · rw [if_neg hc]
    simp [hc]

/-- Refusing when a condition holds, as the last check. -/
theorem Except.refuse_last_iff {ε : Type} {c : Prop} [Decidable c] {failure : ε} :
    (if c then throw failure else pure () : Except ε Unit) = .ok () ↔ ¬c := by
  by_cases hc : c
  · rw [if_pos hc]
    simp only [hc, not_true_eq_false, iff_false]
    rintro ⟨⟩
  · rw [if_neg hc]
    simp [hc, pure, Except.pure]

/-- Steps over a list succeed if each of them does, with as many results. -/
theorem Except.mapM_ok {ε α β : Type} {f : α → Except ε β} : ∀ {as : List α},
    (∀ a ∈ as, ∃ b, f a = .ok b) → ∃ bs, as.mapM f = .ok bs ∧ bs.length = as.length
  | [], _ => ⟨[], rfl, rfl⟩
  | a :: as, h => by
    obtain ⟨b, hb⟩ := h a List.mem_cons_self
    obtain ⟨bs, hbs, hlength⟩ := Except.mapM_ok fun a' ha' => h a' (List.mem_cons_of_mem a ha')
    refine ⟨b :: bs, ?_, by rw [List.length_cons, List.length_cons, hlength]⟩
    rw [List.mapM_cons, hb, hbs]
    rfl

/-- Steps over a list succeed exactly if each of them does. -/
theorem mapM_ok_iff {ε α β : Type} {f : α → Except ε β} {as : List α} {bs : List β} :
    as.mapM f = .ok bs ↔ List.Forall₂ (fun a b => f a = .ok b) as bs := by
  induction as generalizing bs with
  | nil =>
    rw [List.mapM_nil, List.forall₂_nil_left_iff]
    exact ⟨fun h => by cases h; rfl, fun h => by rw [h]; rfl⟩
  | cons a as ih =>
    rw [List.mapM_cons, List.forall₂_cons_left_iff]
    constructor
    · intro h
      obtain ⟨b, hb, h⟩ := Except.bind_ok h
      obtain ⟨bs', hbs, h⟩ := Except.bind_ok h
      cases h
      exact ⟨b, bs', hb, ih.mp hbs, rfl⟩
    · rintro ⟨b, bs', hb, hbs, rfl⟩
      rw [hb, ih.mpr hbs]
      rfl

/-- Steps over a list that all succeed give the list of their results. -/
theorem mapM_map {ε α β : Type} {f : α → Except ε β} {g : α → β} {as : List α}
    (h : ∀ a ∈ as, f a = .ok (g a)) : as.mapM f = .ok (as.map g) := by
  rw [mapM_ok_iff, List.forall₂_map_right_iff, List.forall₂_same]
  exact h

/-- Steps over a list come to the same if each of them does. -/
theorem mapM_congr {ε α β : Type} {f g : α → Except ε β} {as : List α} (h : ∀ a ∈ as, f a = g a) :
    as.mapM f = as.mapM g := by
  induction as with
  | nil => rfl
  | cons a as ih =>
    rw [List.mapM_cons, List.mapM_cons, h a List.mem_cons_self,
      ih fun a' ha' => h a' (List.mem_cons_of_mem a ha')]

/-- Two outcomes are the same, but where one side lacks the key of a name, the other side lacks the
variable. -/
inductive SameOutcome {α : Type} : Except Failure α → Except Failure α → Prop
  | same (result : Except Failure α) : SameOutcome result result
  | missing (name : String) :
    SameOutcome (.error (.absentKey name)) (.error (.evaluation (.unboundVariable name)))

/-- Going on in the same way keeps outcomes the same. -/
theorem SameOutcome.bind {α β : Type} {first first' : Except Failure α}
    {next next' : α → Except Failure β} (h : SameOutcome first first')
    (hnext : ∀ a, first' = .ok a → SameOutcome (next a) (next' a)) :
    SameOutcome (first >>= next) (first' >>= next') := by
  cases h with
  | same =>
    cases first with
    | error failure => exact .same _
    | ok a => exact hnext a rfl
  | missing name => exact .missing name

/-! ## Sequences on a state -/

section Working

variable {σ α β : Type}

/-- The second part of a sequence goes on from where the first one has ended. -/
theorem run_bind (first : ExceptT Failure (StateM σ) α)
    (next : α → ExceptT Failure (StateM σ) β) (s : σ) : (first >>= next).run s =
      match first.run s with
      | (.ok a, s') => (next a).run s'
      | (.error failure, s') => (.error failure, s') := by
  have hrun : (first >>= next).run s =
      ExceptT.bindCont next (first.run s).1 (first.run s).2 := rfl
  rw [hrun]
  match first.run s with
  | (.ok a, s') => rfl
  | (.error failure, s') => rfl

theorem run_bind_ok {first : ExceptT Failure (StateM σ) α}
    {next : α → ExceptT Failure (StateM σ) β} {s s' : σ} {a : α} (h : first.run s = (.ok a, s')) :
    (first >>= next).run s = (next a).run s' := by
  rw [run_bind, h]

theorem run_bind_error {first : ExceptT Failure (StateM σ) α}
    {next : α → ExceptT Failure (StateM σ) β} {s s' : σ} {failure : Failure}
    (h : first.run s = (.error failure, s')) : (first >>= next).run s = (.error failure, s') := by
  rw [run_bind, h]

/-- **A sequence has succeeded if both of its parts have**, the second one where the first has
ended. -/
theorem run_bind_ok_iff {first : ExceptT Failure (StateM σ) α}
    {next : α → ExceptT Failure (StateM σ) β} {s s'' : σ} {b : β} :
    (first >>= next).run s = (.ok b, s'') ↔
      ∃ a s', first.run s = (.ok a, s') ∧ (next a).run s' = (.ok b, s'') := by
  rw [run_bind]
  rcases hfirst : first.run s with ⟨failure | a, s'⟩
  · constructor
    · nofun
    · rintro ⟨a, s', heq, -⟩
      cases heq
  · constructor
    · exact fun h => ⟨a, s', rfl, h⟩
    · rintro ⟨a, s', heq, h⟩
      cases heq
      exact h

/-- **What holds of the state after both parts of a sequence**: it has to hold after the first one, where
the sequence may have failed, and after the second one. -/
theorem bind_leaves {P : σ → Prop} {first : ExceptT Failure (StateM σ) α}
    {next : α → ExceptT Failure (StateM σ) β} {s : σ} (hfirst : P (first.run s).2)
    (hnext : ∀ a s', first.run s = (.ok a, s') → P s' → P ((next a).run s').2) :
    P ((first >>= next).run s).2 := by
  rw [run_bind]
  rcases hrun : first.run s with ⟨failure | a, s'⟩
  · rwa [hrun] at hfirst
  · rw [hrun] at hfirst
    exact hnext a s' hrun hfirst

/-- What each step over a list leaves true is true after all of them. -/
theorem mapM_leaves {P : σ → Prop} {f : α → ExceptT Failure (StateM σ) β} : ∀ {as : List α},
    (∀ a ∈ as, ∀ s, P s → P ((f a).run s).2) → ∀ s, P s → P ((as.mapM f).run s).2
  | [], _, _, hs => hs
  | a :: as, hf, s, hs => by
    rw [List.mapM_cons]
    refine bind_leaves (hf a List.mem_cons_self s hs) fun b s' _ hs' => ?_
    exact bind_leaves (mapM_leaves (fun a' ha' => hf a' (List.mem_cons_of_mem a ha')) s' hs')
      fun _ _ _ hs'' => hs''

theorem run_get_bind (next : σ → ExceptT Failure (StateM σ) β) (s : σ) :
    (get >>= next).run s = (next s).run s := rfl

theorem run_set_bind (s' : σ) (next : PUnit → ExceptT Failure (StateM σ) β) (s : σ) :
    (set s' >>= next).run s = (next ⟨⟩).run s' := rfl

theorem run_modify_bind (f : σ → σ) (next : PUnit → ExceptT Failure (StateM σ) β) (s : σ) :
    (modify f >>= next).run s = (next ⟨⟩).run (f s) := rfl

theorem run_liftM_ok_bind (a : α) (next : α → ExceptT Failure (StateM σ) β) (s : σ) :
    ((liftM (Except.ok a : Except Failure α) : ExceptT Failure (StateM σ) α) >>= next).run s =
      (next a).run s := rfl

end Working

end FormulaEvolution
