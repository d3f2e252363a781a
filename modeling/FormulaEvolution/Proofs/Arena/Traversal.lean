/-
# Walks, levels and depths of proper trees

Both walks through a proper tree pass each node once, children in their order, and the nodes below any
node one right after the other; one passes a node before and the other one after all nodes below it
(`Arena.Tour`).  The level of a node is the number of links of the one path to it from the root, and
together with the node's height it is at most the height of the root, which is reached at a leaf, so that
there are nodes on all levels above (`Arena.ProperTree.surveyed`).

Both walks are tours with the same links, and differ in the place of a node beside those below it
(`Links.tour`); all but this place is shown of both at once.

The walks tell the true size of a tree.  The length that its root answers with is this size where nothing
below remembers anything false, and need not be it elsewhere (`Session.short_answer`).
-/
import FormulaEvolution.Proofs.Arena.Apart

namespace FormulaEvolution

/-! ## 1. Paths and tours -/

namespace Links

/-- There is a path downwards from one node to another one with so many links. -/
inductive Path (l : Links) (i : NodeId) : NodeId → Nat → Prop
  | here : Path l i i 0
  | down {p c : NodeId} {n : Nat} : Path l i p n → l.IsChild p c → Path l i c (n + 1)

variable {l : Links} {i j k c : NodeId} {m n : Nat}

namespace Path

theorem reaches (h : l.Path i k n) : l.Below i k := by
  induction h with
  | here => exact .refl
  | down _ hc ih => exact ih.tail hc

/-- A path goes on from a child. -/
theorem head (hc : l.IsChild i c) (h : l.Path c k n) : l.Path i k (n + 1) := by
  induction h with
  | here => exact .down .here hc
  | down _ hchild ih => exact ih.down hchild

/-- A path to a node and one downwards from there are one together. -/
theorem descent (h : l.Path i k n) (hm : l.Descent k m) : l.Descent i (n + m) := by
  induction h generalizing m with
  | here => rwa [Nat.zero_add]
  | @down p c n _ hc ih =>
    have hnodes : n + 1 + m = n + (m + 1) := by omega
    rw [hnodes]
    exact ih (.down hc hm)

end Path

theorem Below.exists_path (h : l.Below i k) : ∃ n, l.Path i k n := by
  induction h with
  | refl => exact ⟨0, .here⟩
  | tail _ hc ih =>
    obtain ⟨n, hn⟩ := ih
    exact ⟨n + 1, hn.down hc⟩

/-- A path downwards passes a node after any smaller number of links. -/
theorem Descent.exists_path (h : l.Descent i m) (hn : n < m) : ∃ k, l.Path i k n := by
  induction h generalizing n with
  | here i =>
    obtain rfl : n = 0 := by omega
    exact ⟨i, .here⟩
  | @down i c m hc _ ih =>
    cases n with
    | zero => exact ⟨i, .here⟩
    | succ n =>
      obtain ⟨k, hk⟩ := ih (Nat.lt_of_succ_lt_succ hn)
      exact ⟨k, .head hc hk⟩

/-- A node in front of some others or behind them. -/
def framed (first : Bool) (i : NodeId) (below : List NodeId) : List NodeId :=
  if first then i :: below else below ++ [i]

/-- The nodes below and including a node down to a bound, each in front of those below it or behind
them. -/
def tour (l : Links) (first : Bool) : Nat → NodeId → List NodeId
  | 0, _ => []
  | bound + 1, i => framed first i ((l.children i).flatMap (l.tour first bound))

section Frames

variable {first : Bool} {ks : List NodeId}

@[simp] theorem mem_framed : k ∈ framed first i ks ↔ k = i ∨ k ∈ ks := by
  cases first <;> simp [framed, or_comm]

@[simp] theorem length_framed : (framed first i ks).length = ks.length + 1 := by
  cases first <;> simp [framed]

theorem nodup_framed : (framed first i ks).Nodup ↔ i ∉ ks ∧ ks.Nodup := by
  cases first
  · rw [framed, if_neg Bool.false_ne_true, List.nodup_append_comm]
    exact List.nodup_cons
  · exact List.nodup_cons

theorem infix_framed : ks <:+: framed first i ks := by
  cases first
  · exact (List.prefix_append ks [i]).isInfix
  · exact (List.suffix_cons i ks).isInfix

end Frames

end Links

namespace Arena

variable {a b : Arena} {i j k p c r : NodeId} {u : TreeId} {n : Nat}

/-- What two walks have in common: a walk from a node passes exactly the nodes below and including it, each
of them once, the children of each in their order, and in one piece whatever it passes from any of them. -/
structure Tour (a : Arena) (walk : NodeId → Except Failure (List NodeId)) (i : NodeId)
    (ks : List NodeId) : Prop where
  passed : walk i = .ok ks
  holds : ∀ k, k ∈ ks ↔ a.links.Below i k
  once : ks.Nodup
  count : ks.length = a.links.size i
  siblings : ∀ p, a.links.Below i p → (a.childrenOf p).Sublist ks
  blocks : ∀ k, a.links.Below i k → ∃ js, walk k = .ok js ∧ js <:+: ks

/-- Walks below several nodes, each of which comes to its end. -/
theorem walkAll_ended {visit : NodeId → List NodeId × Bool} {f : NodeId → List NodeId} :
    ∀ {cs : List NodeId}, (∀ c ∈ cs, visit c = (f c, true)) → walkAll visit cs = (cs.flatMap f, true)
  | [], _ => rfl
  | c :: cs, hvisit => by
    have hrest := walkAll_ended fun d hd => hvisit d (List.mem_cons_of_mem c hd)
    simp only [walkAll, hvisit c List.mem_cons_self, hrest, if_true, List.flatMap_cons]

namespace Proper

variable (h : a.Proper r)

include h

/-- What is true of a node if it is of its children is true of all nodes of a proper tree. -/
theorem induct {P : NodeId → Prop}
    (step : ∀ p, a.links.Below r p → (∀ c ∈ a.childrenOf p, P c) → P p) (hi : a.links.Below r i) : P i := by
  obtain ⟨n, hn⟩ : ∃ n, a.links.size i = n := ⟨_, rfl⟩
  induction n using Nat.strong_induction_on generalizing i with
  | _ n ih =>
    refine step i hi fun c hc => ?_
    exact ih (a.links.size c) (hn ▸ h.size_lt hi hc) (hi.tail hc) rfl

theorem size_le_of_below (hi : a.links.Below r i) (hik : a.links.Below i k) :
    a.links.size k ≤ a.links.size i := by
  induction hik with
  | refl => exact Nat.le_refl _
  | tail hip hc ih => exact (h.size_lt (hi.trans hip) hc).le.trans ih

/-! ## 2. Tours of a proper tree -/

section Tours

variable {first : Bool} {bound bound' : Nat}

/-- A bound that is enough leaves nothing out. -/
theorem tour_congr (hi : a.links.Below r i) (hbound : a.links.size i ≤ bound)
    (hbound' : a.links.size i ≤ bound') : a.links.tour first bound i = a.links.tour first bound' i := by
  induction bound generalizing i bound' with
  | zero => exact absurd (h.size_pos hi) (by omega)
  | succ bound ih =>
    cases bound' with
    | zero => exact absurd (h.size_pos hi) (by omega)
    | succ bound' =>
      rw [Links.tour, Links.tour]
      refine congrArg _ (List.flatMap_congr fun c hc => ?_)
      have hsize := h.size_lt hi hc
      exact ih (hi.tail hc) (by omega) (by omega)

/-- **A tour from a node consists of the node and the tours from its children.** -/
theorem tour_eq (hi : a.links.Below r i) (hbound : a.links.size i ≤ bound) :
    a.links.tour first bound i =
      Links.framed first i ((a.childrenOf i).flatMap (a.links.tour first bound)) := by
  cases bound with
  | zero => exact absurd (h.size_pos hi) (by omega)
  | succ bound =>
    rw [Links.tour]
    refine congrArg _ (List.flatMap_congr fun c hc => ?_)
    have hsize := h.size_lt hi hc
    exact h.tour_congr (hi.tail hc) (by omega) (by omega)

/-- **A tour passes the nodes below and including a node.** -/
theorem mem_tour (hi : a.links.Below r i) (hbound : a.links.size i ≤ bound) :
    k ∈ a.links.tour first bound i ↔ a.links.Below i k := by
  revert hbound
  refine h.induct (P := fun i => a.links.size i ≤ bound → (k ∈ a.links.tour first bound i ↔
    a.links.Below i k)) (fun i hi ih hbound => ?_) hi
  have hchildren : (∃ c ∈ a.childrenOf i, k ∈ a.links.tour first bound c) ↔
      ∃ c ∈ a.childrenOf i, a.links.Below c k :=
    exists_congr fun c => and_congr_right fun hc => ih c hc ((h.size_lt hi hc).le.trans hbound)
  rw [h.tour_eq hi hbound, Links.mem_framed, List.mem_flatMap, hchildren]
  constructor
  · rintro (rfl | ⟨c, hc, hck⟩)
    · exact .refl
    · exact .head hc hck
  · intro hik
    rcases Relation.ReflTransGen.cases_head hik with rfl | ⟨c, hc, hck⟩
    · exact .inl rfl
    · exact .inr ⟨c, hc, hck⟩

/-- **A tour passes no node twice.** -/
theorem nodup_tour (hi : a.links.Below r i) (hbound : a.links.size i ≤ bound) :
    (a.links.tour first bound i).Nodup := by
  revert hbound
  refine h.induct (P := fun i => a.links.size i ≤ bound → (a.links.tour first bound i).Nodup)
    (fun i hi ih hbound => ?_) hi
  have hsmall : ∀ c ∈ a.childrenOf i, a.links.size c ≤ bound := fun c hc =>
    (h.size_lt hi hc).le.trans hbound
  rw [h.tour_eq hi hbound, Links.nodup_framed, List.nodup_flatMap]
  refine ⟨fun hin => ?_, fun c hc => ih c hc (hsmall c hc), ?_⟩
  · obtain ⟨c, hc, hci⟩ := List.mem_flatMap.mp hin
    exact h.not_below_of_child hi hc ((h.mem_tour (hi.tail hc) (hsmall c hc)).mp hci)
  · refine (h.children_apart hi).imp_of_mem fun hc hd hapart k hck hdk => ?_
    exact hapart k ((h.mem_tour (hi.tail hc) (hsmall _ hc)).mp hck)
      ((h.mem_tour (hi.tail hd) (hsmall _ hd)).mp hdk)

/-- **A tour has as many nodes as there are.** -/
theorem length_tour (hi : a.links.Below r i) (hbound : a.links.size i ≤ bound) :
    (a.links.tour first bound i).length = a.links.size i := by
  revert hbound
  refine h.induct (P := fun i => a.links.size i ≤ bound → (a.links.tour first bound i).length =
    a.links.size i) (fun i hi ih hbound => ?_) hi
  have hlengths : (a.childrenOf i).map (fun c => (a.links.tour first bound c).length) =
      (a.childrenOf i).map a.links.size :=
    List.map_congr_left fun c hc => ih c hc ((h.size_lt hi hc).le.trans hbound)
  rw [h.tour_eq hi hbound, Links.length_framed, List.length_flatMap, hlengths, h.size_eq hi,
    Nat.add_comm]

/-- **What a tour passes from a node on is one piece of it.** -/
theorem tour_infix (hi : a.links.Below r i) (hbound : a.links.size i ≤ bound) (hik : a.links.Below i k) :
    a.links.tour first bound k <:+: a.links.tour first bound i := by
  induction hik with
  | refl => exact List.infix_rfl
  | @tail p c hip hc ih =>
    have hp : a.links.Below r p := hi.trans hip
    have hsmall : a.links.size p ≤ bound := (h.size_le_of_below hi hip).trans hbound
    have hpiece : a.links.tour first bound c <:+: (a.childrenOf p).flatMap (a.links.tour first bound) :=
      List.infix_of_mem_flatten (List.mem_map_of_mem hc)
    refine List.IsInfix.trans ?_ ih
    rw [h.tour_eq hp hsmall]
    exact hpiece.trans Links.infix_framed

/-- **A tour passes the children of a node in their order.** -/
theorem children_sublist_tour (hi : a.links.Below r i) (hbound : a.links.size i ≤ bound)
    (hip : a.links.Below i p) : (a.childrenOf p).Sublist (a.links.tour first bound i) := by
  have hp : a.links.Below r p := hi.trans hip
  have hsmall : a.links.size p ≤ bound := (h.size_le_of_below hi hip).trans hbound
  have hown : ∀ c ∈ a.childrenOf p, c ∈ a.links.tour first bound c := fun c hc =>
    (h.mem_tour (hp.tail hc) ((h.size_lt hp hc).le.trans hsmall)).mpr .refl
  have hchildren : (a.childrenOf p).Sublist ((a.childrenOf p).flatMap (a.links.tour first bound)) := by
    have hsingle := List.Sublist.flatMap_right (a.childrenOf p)
      (fun c hc => List.singleton_sublist.mpr (hown c hc))
    rwa [List.flatMap_singleton'] at hsingle
  have hpiece : (a.childrenOf p).flatMap (a.links.tour first bound) <:+: a.links.tour first bound p := by
    rw [h.tour_eq hp hsmall]
    exact Links.infix_framed
  exact hchildren.trans (hpiece.trans (h.tour_infix hi hbound hip)).sublist

/-- **A tour passes a node before all nodes below it, or after them.** -/
theorem tour_order (first : Bool) (hi : a.links.Below r i) (hbound : a.links.size i ≤ bound)
    (hij : a.links.Below i j) (hjk : a.links.Below j k) (hne : j ≠ k) :
    (if first then [j, k] else [k, j]).Sublist (a.links.tour first bound i) := by
  have hj : a.links.Below r j := hi.trans hij
  have hsmall : a.links.size j ≤ bound := (h.size_le_of_below hi hij).trans hbound
  refine List.Sublist.trans ?_ (h.tour_infix hi hbound hij).sublist
  have hk : k ∈ a.links.tour first bound j := (h.mem_tour hj hsmall).mpr hjk
  rw [h.tour_eq hj hsmall] at hk ⊢
  rcases Links.mem_framed.mp hk with rfl | hk
  · exact absurd rfl hne
  cases first
  · exact (List.singleton_sublist.mpr hk).append (.refl [j])
  · exact (List.singleton_sublist.mpr hk).cons_cons j

end Tours

/-! ## 3. Walks -/

section Walks

variable {bound : Nat}

/-- **The walk that passes each node first is a tour.** -/
theorem walk_eq_tour (hi : a.links.Below r i) (hbound : a.links.size i ≤ bound) :
    a.walk bound i = (a.links.tour true bound i, true) := by
  induction bound generalizing i with
  | zero => exact absurd (h.size_pos hi) (by omega)
  | succ bound ih =>
    have hbelow : walkAll (a.walk bound) (a.childrenOf i) =
        ((a.childrenOf i).flatMap (a.links.tour true bound), true) := by
      refine walkAll_ended fun c hc => ?_
      have hsize := h.size_lt hi hc
      exact ih (hi.tail hc) (by omega)
    rw [walk, hbelow]
    rfl

/-- **The walk that passes each node last is a tour.** -/
theorem postorderWithin_eq_tour (hi : a.links.Below r i) (hbound : a.links.size i ≤ bound) :
    a.postorderWithin bound i = .ok (a.links.tour false bound i) := by
  induction bound generalizing i with
  | zero => exact absurd (h.size_pos hi) (by omega)
  | succ bound ih =>
    have hbelow : (a.childrenOf i).mapM (a.postorderWithin bound) =
        .ok ((a.childrenOf i).map (a.links.tour false bound)) := by
      refine mapM_map fun c hc => ?_
      have hsize := h.size_lt hi hc
      exact ih (hi.tail hc) (by omega)
    rw [postorderWithin, hbelow]
    rfl

end Walks

theorem size_le_pathBound (hi : a.links.Below r i) : a.links.size i ≤ a.pathBound := by
  have hsize := h.size_le hi
  rw [pathBound]
  omega

theorem preorder_eq_tour (hi : a.links.Below r i) :
    a.preorder i = .ok (a.links.tour true a.pathBound i) := by
  rw [preorder, h.walk_eq_tour hi (h.size_le_pathBound hi)]

theorem postorder_eq_tour (hi : a.links.Below r i) :
    a.postorder i = .ok (a.links.tour false a.pathBound i) :=
  h.postorderWithin_eq_tour hi (h.size_le_pathBound hi)

/-- A walk that is a tour from each node has all that tours have. -/
theorem tour_of_eq {first : Bool} {walk : NodeId → Except Failure (List NodeId)}
    (hwalk : ∀ k, a.links.Below r k → walk k = .ok (a.links.tour first a.pathBound k))
    (hi : a.links.Below r i) : Tour a walk i (a.links.tour first a.pathBound i) where
  passed := hwalk i hi
  holds _ := h.mem_tour hi (h.size_le_pathBound hi)
  once := h.nodup_tour hi (h.size_le_pathBound hi)
  count := h.length_tour hi (h.size_le_pathBound hi)
  siblings _ hip := h.children_sublist_tour hi (h.size_le_pathBound hi) hip
  blocks k hik := ⟨_, hwalk k (hi.trans hik), h.tour_infix hi (h.size_le_pathBound hi) hik⟩

/-! ## 4. Levels -/

/-- A path and the nodes below its end together are not more than there are. -/
theorem size_of_path (hpath : a.links.Path r i n) : n + a.links.size i ≤ a.links.size r := by
  induction hpath with
  | here => omega
  | down hp hc ih =>
    have hsize := h.size_lt hp.reaches hc
    omega

/-- The chain of a node goes back along the path to it. -/
theorem length_chain (hpath : a.links.Path r i n) : ∀ {bound : Nat}, n < bound →
    (a.chain bound i).length = n + 1 := by
  induction hpath with
  | here =>
    intro bound hbound
    obtain ⟨bound, rfl⟩ : ∃ m, bound = m + 1 := ⟨bound - 1, by omega⟩
    rw [chain, h.top]
    rfl
  | @down p c n hp hc ih =>
    intro bound hbound
    obtain ⟨bound, rfl⟩ : ∃ m, bound = m + 1 := ⟨bound - 1, by omega⟩
    rw [chain, (h.linked p c (.inl hp.reaches)).mpr hc, List.length_cons, ih (by omega)]

/-- **The level of a node is the number of links on the path to it from the root.** -/
theorem level_of_path (hpath : a.links.Path r i n) : a.level i = n := by
  have hroom := h.size_of_path hpath
  have hpos := h.size_pos hpath.reaches
  have hsize := h.size_le .refl
  rw [level, upward, h.length_chain hpath (by omega), Nat.add_sub_cancel]

theorem path_iff (hi : a.links.Below r i) : a.links.Path r i n ↔ n = a.level i := by
  constructor
  · intro hpath
    exact (h.level_of_path hpath).symm
  · rintro rfl
    obtain ⟨m, hm⟩ := Links.Below.exists_path hi
    rwa [h.level_of_path hm]

theorem path_level (hi : a.links.Below r i) : a.links.Path r i (a.level i) := (h.path_iff hi).mpr rfl

/-! ## 5. Heights -/

/-- Every node of a proper tree has a height. -/
theorem exists_isHeight (hi : a.links.Below r i) : ∃ e, a.links.IsHeight i e := by
  refine h.induct (P := fun i => ∃ e, a.links.IsHeight i e) (fun i _ ih => ?_) hi
  choose! height hheight using ih
  have hheights : List.Forall₂ a.links.IsHeight (a.childrenOf i) ((a.childrenOf i).map height) :=
    List.forall₂_map_right_iff.mpr (List.forall₂_same.mpr hheight)
  exact ⟨_, Links.isHeight_of_children hheights⟩

variable {d e : Nat}

/-- **The level and the height of a node together are at most the height of the root.** -/
theorem level_add_height_le (hd : a.links.IsHeight r d) (hi : a.links.Below r i)
    (he : a.links.IsHeight i e) : a.level i + e ≤ d :=
  hd.2 ((h.path_level hi).descent he.1)

/-- **There is a node on every level above the height of the root.** -/
theorem exists_level (hd : a.links.IsHeight r d) (hn : n < d) :
    ∃ i, a.links.Below r i ∧ a.level i = n := by
  obtain ⟨i, hi⟩ := Links.Descent.exists_path hd.1 hn
  exact ⟨i, hi.reaches, h.level_of_path hi⟩

/-- **A node on the last level is a leaf.** -/
theorem leaf_of_level (hd : a.links.IsHeight r d) (hi : a.links.Below r i) (hlast : a.level i + 1 = d) :
    a.childrenOf i = [] ∧ a.links.IsHeight i 1 := by
  constructor
  · by_contra hne
    obtain ⟨c, hc⟩ := List.exists_mem_of_ne_nil _ hne
    have hdescent := hd.2 ((h.path_level hi).descent (.down hc (.here c)))
    omega
  · refine ⟨.here i, fun m hm => ?_⟩
    have hdescent := hd.2 ((h.path_level hi).descent hm)
    omega

end Proper

/-! ## 6. Answers -/

/-- What is remembered of a quantity is true if it was and the answer is. -/
def Quantity.Keeps (q : Quantity) (truth : Links → NodeId → Nat → Prop) : Prop :=
  ∀ l i k (m : Node), m.Truthful l i → truth l i k →
    (q.remember k m).children = m.children ∧ (q.remember k m).Truthful l i

theorem Quantity.keeps_length : Quantity.length.Keeps fun l i k => k = l.size i :=
  fun _ _ _ _ hm hk => ⟨rfl, fun _ heq => Option.some.inj heq ▸ hk, hm.depth⟩

theorem Quantity.keeps_depth : Quantity.depth.Keeps Links.IsHeight :=
  fun _ _ _ _ hm hk => ⟨rfl, hm.length, fun _ heq => Option.some.inj heq ▸ hk⟩

/-- The nodes below a node have in another arena the children that they have here, and remember nothing
false. -/
def Told (a : Arena) (r t : NodeId) (b : Arena) : Prop :=
  ∀ k, a.links.Below t k →
    ∃ m, b.node? k = some m ∧ m.children = a.childrenOf k ∧ m.Truthful (a.linksUnder r) k

namespace Proper

variable (h : a.Proper r) {t : NodeId} {q : Quantity} {truth : Links → NodeId → Nat → Prop}

include h

theorem told (ht : a.links.Below r t) (htrue : ∀ k, a.links.Below t k → a.Truthful k) :
    Told a r t a := by
  intro k hk
  obtain ⟨m, hm⟩ := exists_node? (h.lt_of_below (ht.trans hk))
  exact ⟨m, hm, (childrenOf_of_node? hm).symm,
    (htrue k hk m hm).of_twins (agrees_linksUnder (ht.trans hk)).twins⟩

/-- **A node of a proper tree answers with the truth if nothing below remembers anything false.**  The
induction is on the bound, which is enough for the nodes below; no answer changes the links. -/
theorem ask_told (hq : q.Tells truth) (hkeeps : q.Keeps truth) (ht : a.links.Below r t) :
    ∀ {bound i}, a.links.Below t i → a.links.size i ≤ bound → ∀ b, Told a r t b →
      ∃ k d, (q.askWithin bound i).run b = (.ok k, d) ∧ truth (a.linksUnder r) i k ∧ Told a r t d
  | 0, i, hi, hbound, _, _ => absurd (h.size_pos (ht.trans hi)) (by omega)
  | bound + 1, i, hi, hbound, b, hb => by
    obtain ⟨m, hm, hchildren, htruthful⟩ := hb i hi
    have hexpect : b.expect i = .ok m := by rw [expect, hm]
    rw [Quantity.askWithin, Quantity.askOnce, run_get_bind, hexpect, run_liftM_ok_bind]
    cases hknown : q.known m with
    | some known => exact ⟨known, b, rfl, hq.known htruthful hknown, hb⟩
    | none =>
      have hanswered : ∀ c ∈ m.children, ∀ b', Told a r t b' → ∃ k d,
          (q.askWithin bound c).run b' = (.ok k, d) ∧ truth (a.linksUnder r) c k ∧ Told a r t d := by
        intro c hc b' hb'
        rw [hchildren] at hc
        have hsize := h.size_lt (ht.trans hi) hc
        exact ask_told hq hkeeps ht (hi.tail hc) (by omega) b' hb'
      obtain ⟨ks, d, hrun, hks, hd⟩ := mapM_answered hanswered b hb
      have hunder : m.children = (a.linksUnder r).children i :=
        hchildren.trans (agrees_linksUnder (ht.trans hi) i .refl).symm
      rw [hunder] at hks
      have htotal := hq.combine h.forest hks
      refine ⟨q.combine ks, d.alter i (q.remember (q.combine ks)), ?_, htotal, fun k hk => ?_⟩
      · rw [run_bind_ok hrun, run_modify_bind]
        rfl
      · obtain ⟨m', hm', hchildren', htruthful'⟩ := hd k hk
        rw [node?_alter, hm']
        split
        · next hik =>
          subst hik
          obtain ⟨hsame, hstill⟩ := hkeeps _ _ _ m' htruthful' htotal
          exact ⟨_, rfl, hsame.trans hchildren', hstill⟩
        · exact ⟨m', rfl, hchildren', htruthful'⟩

variable (hi : a.links.Below r i) (htrue : ∀ k, a.links.Below i k → a.Truthful k)

include hi htrue

/-- **The length that a node answers with is the number of nodes below and including it.** -/
theorem askLength : ((Arena.askLength i).run a).1 = .ok (a.links.size i) := by
  rw [Arena.askLength, run_get_bind, askLengthWithin_eq]
  obtain ⟨_, b, hrun, rfl, -⟩ := h.ask_told Quantity.tells_length Quantity.keeps_length hi .refl
    (h.size_le_pathBound hi) a (h.told hi htrue)
  rw [hrun, (agrees_linksUnder hi).twins.size]

/-- **The depth that a node answers with is its height.** -/
theorem askDepth {e : Nat} (he : a.links.IsHeight i e) : ((Arena.askDepth i).run a).1 = .ok e := by
  rw [Arena.askDepth, run_get_bind, askDepthWithin_eq]
  obtain ⟨e', b, hrun, he', -⟩ := h.ask_told Quantity.tells_depth Quantity.keeps_depth hi .refl
    (h.size_le_pathBound hi) a (h.told hi htrue)
  rw [hrun, ((agrees_linksUnder hi).twins.isHeight.mp he').unique he]

end Proper

/-! ## 7. Trees -/

/-- What is known of a node in a tree with a root of some height: how it is walked from, how far it is from
the root, how high it is, and what it answers with. -/
structure Surveyed (a : Arena) (r i : NodeId) (d : Nat) : Prop where
  forwards : ∃ ks, Tour a a.preorder i ks ∧
    ∀ j k, a.links.Below i j → a.links.Below j k → j ≠ k → [j, k].Sublist ks
  backwards : ∃ ks, Tour a a.postorder i ks ∧
    ∀ j k, a.links.Below i j → a.links.Below j k → j ≠ k → [k, j].Sublist ks
  distance : ∀ n, a.links.Path r i n ↔ n = a.level i
  height : ∃ e, a.links.IsHeight i e ∧ a.level i + e ≤ d ∧
    ((∀ k, a.links.Below i k → a.Truthful k) → ((askDepth i).run a).1 = .ok e)
  length : (∀ k, a.links.Below i k → a.Truthful k) → ((askLength i).run a).1 = .ok (a.links.size i)

/-- **A proper tree is walked through, and measured.**  Both walks from any node pass each node below and
including it once, as many as there are, with children in their order and subtrees in one piece, a node
before the nodes below it or after them.  The level of a node is its distance from the root; with its height
it is at most the height of the root, at some leaf on the last level it is just that, and no level above is
without a node.  A node answers with the number of the nodes and with its height if nothing below remembers
anything false. -/
theorem ProperTree.surveyed (h : a.ProperTree u) (hroot : a.root? u = some r) :
    ∃ d, a.links.IsHeight r d ∧ (∀ i, a.InTree u i → Surveyed a r i d) ∧
      (∃ i, a.InTree u i ∧ a.childrenOf i = [] ∧ a.links.IsHeight i 1 ∧ a.level i + 1 = d) ∧
      ∀ n < d, ∃ i, a.InTree u i ∧ a.level i = n := by
  have hproper := h r hroot
  obtain ⟨d, hd⟩ := hproper.exists_isHeight .refl
  have hpos : 1 ≤ d := hd.2 (.here r)
  refine ⟨d, hd, fun i hin => ?_, ?_, fun n hn => ?_⟩
  · have hi := (InTree.iff_below hroot).mp hin
    have hbound := hproper.size_le_pathBound hi
    obtain ⟨e, he⟩ := hproper.exists_isHeight hi
    exact {
      forwards := ⟨_, hproper.tour_of_eq (fun _ => hproper.preorder_eq_tour) hi,
        fun _ _ => hproper.tour_order true hi hbound⟩
      backwards := ⟨_, hproper.tour_of_eq (fun _ => hproper.postorder_eq_tour) hi,
        fun _ _ => hproper.tour_order false hi hbound⟩
      distance := fun _ => hproper.path_iff hi
      height := ⟨e, he, hproper.level_add_height_le hd hi he, fun htrue => hproper.askDepth hi htrue he⟩
      length := hproper.askLength hi }
  · obtain ⟨i, hi, hlevel⟩ := hproper.exists_level hd (Nat.sub_lt hpos Nat.one_pos)
    have hlast : a.level i + 1 = d := by omega
    obtain ⟨hleaf, hheight⟩ := hproper.leaf_of_level hd hi hlast
    exact ⟨i, (InTree.iff_below hroot).mpr hi, hleaf, hheight, hlast⟩
  · obtain ⟨i, hi, hlevel⟩ := hproper.exists_level hd hn
    exact ⟨i, (InTree.iff_below hroot).mpr hi, hlevel⟩

end Arena

namespace Session

open Arena

/-- The mean of two constants is walked through and measured; it has a leaf on the level below its root. -/
theorem surveyed_mean : (after .short planting).arena.ProperTree 0 ∧
    (after .short planting).arena.root? 0 = some 0 ∧
    ∃ d, (after .short planting).arena.links.IsHeight 0 d ∧
      (∀ i, (after .short planting).arena.InTree 0 i → Surveyed (after .short planting).arena 0 i d) ∧
      ∃ i, (after .short planting).arena.childrenOf i = [] ∧
        (after .short planting).arena.level i + 1 = d := by
  have hroot : (after .short planting).arena.root? 0 = some 0 := by decide +kernel
  have hproper : (after .short planting).arena.ProperTree 0 := by
    intro r hr
    obtain rfl := Option.some.inj (hroot.symm.trans hr)
    exact proper_of_all [0, 1, 2] (by decide) (by decide +kernel) (by decide +kernel)
  obtain ⟨d, hd, hnodes, ⟨i, -, hleaf, -, hlast⟩, -⟩ := hproper.surveyed hroot
  exact ⟨hproper, hroot, d, hd, hnodes, i, hleaf, hlast⟩

/-- The chain of three nodes is a proper tree, and both walks pass three nodes, but its root answers that
they are two. -/
theorem short_answer : (after .short sharing).arena.ProperTree 0 ∧
    (after .short sharing).arena.root? 0 = some 4 ∧
    ((after .short sharing).arena.preorder 4).toOption = some [4, 5, 6] ∧
    ((after .short sharing).arena.postorder 4).toOption = some [6, 5, 4] ∧
    ((Arena.askLength 4).run (after .short sharing).arena).1.toOption = some 2 := by
  have hroot : (after .short sharing).arena.root? 0 = some 4 := by decide +kernel
  refine ⟨fun r hr => ?_, hroot, by decide +kernel, by decide +kernel, by decide +kernel⟩
  obtain rfl := Option.some.inj (hroot.symm.trans hr)
  exact proper_of_all [4, 5, 6] (by decide) (by decide +kernel) (by decide +kernel)

end Session
end FormulaEvolution
