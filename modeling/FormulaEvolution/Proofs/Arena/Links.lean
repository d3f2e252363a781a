/-
# How nodes hang together

The links of an arena are the children of each node and its parent.  They form a forest if a node is
the parent of exactly those that are its children, has each child once, and is not below itself
(`Links.Forest`).

The true length of a node is the number of nodes below and including it (`Links.size`), its true
height the greatest number of nodes on a path downwards (`Links.IsHeight`).  Both are told by the
children (`Forest.size_eq`, `isHeight_of_children`) and depend on the links below the node only.

Giving a node other children, and parents to those who come and none to those who leave, keeps a
forest if who comes has no parent and is not above the node (`Forest.adopt`).
-/
import FormulaEvolution.Arena.Basic
import FormulaEvolution.Proofs.Sequence
import Mathlib.Algebra.Order.BigOperators.Group.List
import Mathlib.Data.Set.Card
import Mathlib.Logic.Relation
import Mathlib.Order.Bounds.Basic

namespace FormulaEvolution

/-! ## 1. Links -/

/-- The children of each node and its parent. -/
structure Links where
  children : NodeId → List NodeId
  parent : NodeId → Option NodeId

namespace Links

/-- A node is a child of another one. -/
def IsChild (l : Links) (p c : NodeId) : Prop := c ∈ l.children p

/-- A node is another one or below it. -/
def Below (l : Links) : NodeId → NodeId → Prop := Relation.ReflTransGen l.IsChild

/-- There is a path downwards with so many nodes. -/
inductive Descent (l : Links) : NodeId → Nat → Prop
  | here (i : NodeId) : Descent l i 1
  | down {i c : NodeId} {n : Nat} : l.IsChild i c → Descent l c n → Descent l i (n + 1)

/-- The number of nodes below and including a node. -/
noncomputable def size (l : Links) (i : NodeId) : Nat := {j | l.Below i j}.ncard

/-- The number of nodes on a longest path downwards. -/
def IsHeight (l : Links) (i : NodeId) (d : Nat) : Prop := IsGreatest {n | l.Descent i n} d

/-- A forest of `n` nodes: parents and children agree, each child is one once, and no node is below
itself. -/
structure Forest (n : Nat) (l : Links) : Prop where
  parent_iff : ∀ p c, l.parent c = some p ↔ l.IsChild p c
  once : ∀ p, (l.children p).Nodup
  acyclic : ∀ i, ¬ Relation.TransGen l.IsChild i i
  within : ∀ p c, l.IsChild p c → p < n ∧ c < n

section Forests

variable {l l' : Links} {n : Nat} {i j p q c d : NodeId}

namespace Forest

theorem parent_unique (h : l.Forest n) (hp : l.IsChild p c) (hq : l.IsChild q c) : p = q := by
  have := (h.parent_iff p c).mpr hp
  rw [(h.parent_iff q c).mpr hq] at this
  exact (Option.some.inj this).symm

/-- No node is below one of its children. -/
theorem not_below_of_child (h : l.Forest n) (hc : l.IsChild p c) : ¬ l.Below c p :=
  fun hbelow => h.acyclic p (.head' hc hbelow)

/-- Of two nodes above a third one, one is above the other. -/
theorem below_or_below (h : l.Forest n) (hc : l.Below c j) (hd : l.Below d j) :
    l.Below c d ∨ l.Below d c := by
  induction hc with
  | refl => exact .inr hd
  | @tail b j hcb hbj ih =>
    cases hd with
    | refl => exact .inl (hcb.tail hbj)
    | @tail b' _ hdb' hb'j =>
      obtain rfl := h.parent_unique hb'j hbj
      exact ih hdb'

/-- **What is below one child is not below another one.** -/
theorem siblings_apart (h : l.Forest n) (hc : l.IsChild p c) (hd : l.IsChild p d) (hne : c ≠ d)
    (hcj : l.Below c j) : ¬ l.Below d j := by
  intro hdj
  -- Whichever is above the other one is above their parent as well.
  have habove : ∀ {x y : NodeId}, l.IsChild p x → l.IsChild p y → x ≠ y → ¬ l.Below x y := by
    intro x y hx hy hxy hbelow
    cases hbelow with
    | refl => exact hxy rfl
    | @tail b _ hxb hby =>
      obtain rfl := h.parent_unique hby hy
      exact h.not_below_of_child hx hxb
  rcases h.below_or_below hcj hdj with hcd | hdc
  · exact habove hc hd hne hcd
  · exact habove hd hc (Ne.symm hne) hdc

/-- Below a node there are only nodes of the forest, besides itself. -/
theorem below_lt (h : l.Forest n) (hi : i < n) (hij : l.Below i j) : j < n := by
  cases hij with
  | refl => exact hi
  | tail _ hchild => exact (h.within _ _ hchild).2

theorem finite_below (h : l.Forest n) (i : NodeId) : {j | l.Below i j}.Finite := by
  refine Set.Finite.subset ((Set.finite_lt_nat n).insert i) fun j hij => ?_
  cases hij with
  | refl => exact Set.mem_insert i _
  | tail _ hchild => exact Set.mem_insert_of_mem i (h.within _ _ hchild).2

/-! ## 2. Sizes -/

/-- The nodes below one of several nodes, none of which shares any with another one. -/
theorem ncard_below_any (h : l.Forest n) : ∀ {cs : List NodeId},
    cs.Pairwise (fun c d => ∀ j, l.Below c j → ¬ l.Below d j) →
      {j | ∃ c ∈ cs, l.Below c j}.ncard = (cs.map l.size).sum ∧
        {j | ∃ c ∈ cs, l.Below c j}.Finite
  | [], _ => by simp
  | c :: cs, hapart => by
    obtain ⟨hfirst, hrest⟩ := List.pairwise_cons.mp hapart
    obtain ⟨hcard, hfinite⟩ := ncard_below_any h hrest
    have hunion : {j | ∃ d ∈ c :: cs, l.Below d j} =
        {j | l.Below c j} ∪ {j | ∃ d ∈ cs, l.Below d j} := by
      ext j
      simp
    have hdisjoint : Disjoint {j | l.Below c j} {j | ∃ d ∈ cs, l.Below d j} := by
      rw [Set.disjoint_left]
      rintro j hcj ⟨d, hd, hdj⟩
      exact hfirst d hd j hcj hdj
    rw [hunion, List.map_cons, List.sum_cons,
      Set.ncard_union_eq hdisjoint (h.finite_below c) hfinite, hcard]
    exact ⟨rfl, (h.finite_below c).union hfinite⟩

/-- No two children have anything below in common. -/
theorem children_apart (h : l.Forest n) (i : NodeId) :
    (l.children i).Pairwise (fun c d => ∀ j, l.Below c j → ¬ l.Below d j) :=
  (h.once i).imp_of_mem fun hc hd hne _ => h.siblings_apart hc hd hne

/-- **The size of a node is one more than those of its children together.** -/
theorem size_eq (h : l.Forest n) (i : NodeId) :
    l.size i = 1 + ((l.children i).map l.size).sum := by
  obtain ⟨hcard, hfinite⟩ := h.ncard_below_any (h.children_apart i)
  have hsplit : {j | l.Below i j} = insert i {j | ∃ c ∈ l.children i, l.Below c j} := by
    ext j
    constructor
    · intro hij
      rcases Relation.ReflTransGen.cases_head hij with rfl | ⟨c, hc, hcj⟩
      · exact Set.mem_insert i _
      · exact Set.mem_insert_of_mem i ⟨c, hc, hcj⟩
    · rintro (rfl | ⟨c, hc, hcj⟩)
      · exact .refl
      · exact .head hc hcj
  have hnot : i ∉ {j | ∃ c ∈ l.children i, l.Below c j} := by
    rintro ⟨c, hc, hci⟩
    exact h.not_below_of_child hc hci
  rw [size, hsplit, Set.ncard_insert_of_notMem hnot hfinite, hcard, Nat.add_comm]

theorem size_pos (h : l.Forest n) (i : NodeId) : 0 < l.size i := by
  rw [h.size_eq i]
  omega

theorem size_lt (h : l.Forest n) (hc : l.IsChild i c) : l.size c < l.size i := by
  have hle := List.le_sum_of_mem (List.mem_map_of_mem (f := l.size) hc)
  rw [h.size_eq i]
  omega

theorem size_le (h : l.Forest n) (hi : i < n) : l.size i ≤ n := by
  have hsub : {j | l.Below i j} ⊆ (Finset.range n : Set NodeId) :=
    fun j hij => Finset.mem_coe.mpr (Finset.mem_range.mpr (h.below_lt hi hij))
  have hle := Set.ncard_le_ncard hsub (Finset.finite_toSet _)
  rwa [Set.ncard_coe_finset, Finset.card_range] at hle

end Forest

/-! ## 3. Heights -/

theorem le_foldl_max {ds : List Nat} (start : Nat) :
    start ≤ ds.foldl max start ∧ ∀ d ∈ ds, d ≤ ds.foldl max start := by
  induction ds generalizing start with
  | nil => simp
  | cons d ds ih =>
    obtain ⟨hstart, hall⟩ := ih (max start d)
    rw [List.foldl_cons]
    refine ⟨by omega, fun e he => ?_⟩
    rcases List.mem_cons.mp he with rfl | he
    · omega
    · exact hall e he

theorem foldl_max_mem (ds : List Nat) (start : Nat) :
    ds.foldl max start = start ∨ ds.foldl max start ∈ ds := by
  induction ds generalizing start with
  | nil => exact .inl rfl
  | cons d ds ih =>
    rw [List.foldl_cons]
    rcases ih (max start d) with heq | hmem
    · rcases Nat.le_total start d with hle | hle
      · rw [heq, Nat.max_eq_right hle]
        exact .inr List.mem_cons_self
      · rw [heq, Nat.max_eq_left hle]
        exact .inl rfl
    · exact .inr (List.mem_cons_of_mem d hmem)

/-- A path downwards stops at once or goes on from a child. -/
theorem descent_iff {m : Nat} :
    l.Descent i m ↔ m = 1 ∨ ∃ c ∈ l.children i, ∃ k, m = k + 1 ∧ l.Descent c k := by
  constructor
  · rintro (_ | ⟨hc, hdescent⟩)
    · exact .inl rfl
    · exact .inr ⟨_, hc, _, rfl, hdescent⟩
  · rintro (rfl | ⟨c, hc, k, rfl, hdescent⟩)
    · exact .here i
    · exact .down hc hdescent

/-- **The height of a node is one more than the greatest of those of its children.** -/
theorem isHeight_of_children {ds : List Nat} (h : List.Forall₂ l.IsHeight (l.children i) ds) :
    l.IsHeight i (1 + ds.foldl max 0) := by
  constructor
  · rw [Set.mem_ofPred_eq, descent_iff]
    rcases foldl_max_mem ds 0 with heq | hmem
    · exact .inl (by rw [heq])
    · obtain ⟨c, hc, hheight⟩ := exists_of_forall₂ h hmem
      exact .inr ⟨c, hc, _, Nat.add_comm 1 _, hheight.1⟩
  · intro m hm
    rw [Set.mem_ofPred_eq, descent_iff] at hm
    rcases hm with rfl | ⟨c, hc, k, rfl, hk⟩
    · exact Nat.le_add_right 1 _
    · obtain ⟨d, hd, hheight⟩ := exists_of_forall₂ h.flip hc
      have hle := (le_foldl_max 0).2 d hd
      have hkd : k ≤ d := hheight.2 hk
      omega

/-! ## 4. The same below a node -/

/-- Two nodes have as many nodes below and paths of the same lengths. -/
structure Twins (l l' : Links) (i j : NodeId) : Prop where
  size : l'.size j = l.size i
  descent : ∀ m, l'.Descent j m ↔ l.Descent i m

theorem Twins.isHeight {d : Nat} (h : Twins l l' i j) : l'.IsHeight j d ↔ l.IsHeight i d := by
  rw [IsHeight, IsHeight, Set.ext fun m => h.descent m]

/-- **Nodes are twins if their children are.** -/
theorem twins_of_children {n' : Nat} (h : l.Forest n) (h' : l'.Forest n')
    (hcs : List.Forall₂ (Twins l l') (l.children i) (l'.children j)) : Twins l l' i j := by
  constructor
  · have hsizes : (l'.children j).map l'.size = (l.children i).map l.size := by
      generalize l.children i = cs, l'.children j = ds at hcs
      induction hcs with
      | nil => rfl
      | cons hc _ ih => rw [List.map_cons, List.map_cons, hc.size, ih]
    rw [h.size_eq, h'.size_eq, hsizes]
  · intro m
    rw [descent_iff, descent_iff]
    refine or_congr_right ⟨?_, ?_⟩
    · rintro ⟨d, hd, k, hm, hk⟩
      obtain ⟨c, hc, htwins⟩ := exists_of_forall₂ hcs hd
      exact ⟨c, hc, k, hm, (htwins.descent k).mp hk⟩
    · rintro ⟨c, hc, k, hm, hk⟩
      obtain ⟨d, hd, htwins⟩ := exists_of_forall₂ hcs.flip hc
      exact ⟨d, hd, k, hm, (htwins.descent k).mpr hk⟩

/-- Links have the same children as others below a node. -/
def AgreesBelow (l l' : Links) (i : NodeId) : Prop :=
  ∀ j, l.Below i j → l'.children j = l.children j

namespace AgreesBelow

theorem child (h : AgreesBelow l l' i) (hc : l.IsChild i c) : AgreesBelow l l' c :=
  fun j hj => h j (.head hc hj)

theorem below (h : AgreesBelow l l' i) (hij : l.Below i j) : l'.Below i j := by
  induction hij with
  | refl => exact .refl
  | @tail b c hib hbc ih =>
    refine ih.tail ?_
    rw [IsChild, h b hib]
    exact hbc

theorem below_iff (h : AgreesBelow l l' i) : l'.Below i j ↔ l.Below i j := by
  refine ⟨fun hij => ?_, h.below⟩
  induction hij with
  | refl => exact .refl
  | @tail b c _ hbc ih =>
    refine ih.tail ?_
    rw [IsChild, ← h b ih]
    exact hbc

theorem symm (h : AgreesBelow l l' i) : AgreesBelow l' l i :=
  fun j hj => (h j (h.below_iff.mp hj)).symm

theorem descent {m : Nat} (h : AgreesBelow l l' i) (hm : l.Descent i m) : l'.Descent i m := by
  induction hm with
  | here i => exact .here i
  | @down i c m hc _ ih =>
    refine .down ?_ (ih (h.child hc))
    rw [IsChild, h i .refl]
    exact hc

/-- **Size and height depend on the links below a node only.** -/
theorem twins (h : AgreesBelow l l' i) : Twins l l' i i where
  size := by
    have hsets : {j | l'.Below i j} = {j | l.Below i j} := Set.ext fun _ => h.below_iff
    rw [Links.size, Links.size, hsets]
  descent _ := ⟨h.symm.descent, h.descent⟩

end AgreesBelow

/-! ## 5. Other children for a node -/

/-- Give a node other children; those who leave have no parent any more. -/
def adopt (l : Links) (p : NodeId) (cs : List NodeId) : Links where
  children q := if q = p then cs else l.children q
  parent x := if x ∈ cs then some p else if x ∈ l.children p then none else l.parent x

/-- A node may become a child of another one: it has no parent and is not above the place. -/
structure MayJoin (l : Links) (n : Nat) (p c : NodeId) : Prop where
  there : c < n
  orphan : l.parent c = none
  apart : ¬ l.Below c p

namespace Forest

variable {cs : List NodeId}

theorem not_child_of_orphan (h : l.Forest n) (hc : l.parent c = none) : ¬ l.IsChild q c := by
  intro hchild
  rw [(h.parent_iff q c).mpr hchild] at hc
  cases hc

/-- Nothing is above a node without a parent, besides itself. -/
theorem eq_of_below_orphan (h : l.Forest n) (hi : l.parent i = none) (hji : l.Below j i) : j = i := by
  rcases Relation.ReflTransGen.cases_tail hji with rfl | ⟨b, -, hb⟩
  · rfl
  · exact absurd hb (h.not_child_of_orphan hi)

/-- A path in the new links is an old one or goes through one that has come. -/
theorem transGen_adopt (hcs : ∀ x ∈ cs, l.IsChild p x ∨ l.MayJoin n p x)
    (hij : Relation.TransGen (l.adopt p cs).IsChild i j) :
    Relation.TransGen l.IsChild i j ∨
      l.Below i p ∧ ∃ x, l.MayJoin n p x ∧ l.Below x j := by
  have hstep : ∀ {b c : NodeId}, (l.adopt p cs).IsChild b c →
      l.IsChild b c ∨ b = p ∧ l.MayJoin n p c := by
    intro b c hbc
    simp only [IsChild, adopt] at hbc
    split at hbc
    · next hb =>
      subst hb
      exact (hcs c hbc).imp_right fun hjoin => ⟨rfl, hjoin⟩
    · exact .inl hbc
  induction hij with
  | single hchild =>
    rcases hstep hchild with hold | ⟨rfl, hjoin⟩
    · exact .inl (.single hold)
    · exact .inr ⟨.refl, _, hjoin, .refl⟩
  | tail _ hchild ih =>
    rcases ih with hold | ⟨hip, x, hjoin, hx⟩
    · rcases hstep hchild with hchild | ⟨rfl, hjoin⟩
      · exact .inl (hold.tail hchild)
      · exact .inr ⟨hold.to_reflTransGen, _, hjoin, .refl⟩
    · rcases hstep hchild with hchild | ⟨rfl, -⟩
      · exact .inr ⟨hip, x, hjoin, hx.tail hchild⟩
      · exact absurd hx hjoin.apart

/-- **Nodes that may join keep a forest one.** -/
theorem adopt (h : l.Forest n) (hp : p < n) (honce : cs.Nodup)
    (hcs : ∀ x ∈ cs, l.IsChild p x ∨ l.MayJoin n p x) : (l.adopt p cs).Forest n where
  parent_iff q c := by
    simp only [Links.adopt, IsChild]
    by_cases hq : q = p
    · subst hq
      by_cases hc : c ∈ cs
      · simp [hc]
      · simp only [if_neg hc, if_true]
        split
        · exact ⟨nofun, fun hin => absurd hin hc⟩
        · next hnot =>
          exact ⟨fun hparent => absurd ((h.parent_iff q c).mp hparent) hnot, fun hin => absurd hin hc⟩
    · rw [if_neg hq]
      by_cases hc : c ∈ cs
      · rw [if_pos hc]
        refine ⟨fun heq => absurd (Option.some.inj heq).symm hq, fun hchild => ?_⟩
        rcases hcs c hc with hold | hjoin
        · exact absurd (h.parent_unique hchild hold) hq
        · exact absurd hchild (h.not_child_of_orphan hjoin.orphan)
      · rw [if_neg hc]
        split
        · next hold => exact ⟨nofun, fun hchild => absurd (h.parent_unique hchild hold) hq⟩
        · exact h.parent_iff q c
  once q := by
    simp only [Links.adopt]
    split
    · exact honce
    · exact h.once q
  acyclic i hi := by
    rcases transGen_adopt hcs hi with hold | ⟨hip, x, hjoin, hx⟩
    · exact h.acyclic i hold
    · exact hjoin.apart (hx.trans hip)
  within q c hc := by
    simp only [Links.adopt, IsChild] at hc
    split at hc
    · next hq =>
      refine ⟨hq ▸ hp, ?_⟩
      rcases hcs c hc with hold | hjoin
      · exact (h.within p c hold).2
      · exact hjoin.there
    · exact h.within q c hc

/-- **Some children are exchanged for others that may join.** -/
theorem exchange {before olds news after : List NodeId} (h : l.Forest n) (hp : p < n)
    (hold : l.children p = before ++ olds ++ after) (honce : news.Nodup)
    (hnews : ∀ x ∈ news, l.MayJoin n p x) :
    (l.adopt p (before ++ news ++ after)).Forest n ∧
      ∀ x, (l.adopt p (before ++ news ++ after)).parent x =
        if x ∈ news then some p else if x ∈ olds then none else l.parent x := by
  have hchild : ∀ {x}, x ∈ before ++ olds ++ after → l.IsChild p x := fun hx => by
    rwa [IsChild, hold]
  have hstays : ∀ {x}, x ∈ before ++ after → l.IsChild p x := fun hx => by
    rcases List.mem_append.mp hx with hx | hx
    · exact hchild (List.mem_append_left _ (List.mem_append_left _ hx))
    · exact hchild (List.mem_append_right _ hx)
  have hfresh : ∀ x ∈ news, x ∉ before ++ after := fun x hx hin =>
    h.not_child_of_orphan (hnews x hx).orphan (hstays hin)
  have honceOld := h.once p
  rw [hold] at honceOld
  have honceStays : (before ++ after).Nodup :=
    honceOld.sublist ((List.sublist_append_left before olds).append_right after)
  constructor
  · refine h.adopt hp ?_ fun x hx => ?_
    · rw [List.perm_append_right_iff _ |>.mpr List.perm_append_comm |>.nodup_iff,
        List.append_assoc, List.nodup_append']
      exact ⟨honce, honceStays, fun x hx => hfresh x hx⟩
    · simp only [List.mem_append] at hx hstays
      rcases hx with (hx | hx) | hx
      · exact .inl (hstays (.inl hx))
      · exact .inr (hnews x hx)
      · exact .inl (hstays (.inr hx))
  · intro x
    simp only [Links.adopt, hold, List.mem_append]
    by_cases hx : x ∈ news
    · simp [hx]
    · by_cases hstay : x ∈ before ∨ x ∈ after
      · have hparent := (h.parent_iff p x).mpr (hstays (List.mem_append.mpr hstay))
        have hnot : x ∉ olds := by
          intro hin
          rw [List.append_assoc, List.nodup_append', List.nodup_append'] at honceOld
          rcases hstay with hbefore | hafter
          · exact honceOld.2.2 hbefore (List.mem_append_left _ hin)
          · exact honceOld.2.1.2.2 hin hafter
        have hin : (x ∈ before ∨ x ∈ news) ∨ x ∈ after := by tauto
        rw [if_pos hin, if_neg hx, if_neg hnot, hparent]
      · have hout : ¬((x ∈ before ∨ x ∈ news) ∨ x ∈ after) := by tauto
        have hiff : ((x ∈ before ∨ x ∈ olds) ∨ x ∈ after) ↔ x ∈ olds := by tauto
        rw [if_neg hout, if_neg hx, if_congr hiff rfl rfl]

theorem mono {m : Nat} (h : l.Forest n) (hle : n ≤ m) : l.Forest m :=
  { h with within := fun p c hc => ⟨(h.within p c hc).1.trans_le hle,
      (h.within p c hc).2.trans_le hle⟩ }

/-- Below nodes that are not above the place, everything is as before. -/
theorem agreesBelow_adopt (hi : ¬ (l.adopt p cs).Below i p) : AgreesBelow (l.adopt p cs) l i := by
  intro j hij
  have hj : j ≠ p := fun heq => hi (heq ▸ hij)
  simp only [Links.adopt, if_neg hj]

end Forest

end Forests

end Links
end FormulaEvolution
