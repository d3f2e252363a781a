/-
# Changes keep arenas sound

A change that succeeds leaves a sound arena with as many nodes as before, if nodes that are attached
may join where they go to, nodes that become roots have no parent, and constants and variables get
symbols without children only.

A node that gets a child is not a constant or a variable, since those take none; a node that a child
is taken out of is not one either, since those have none.
-/
import FormulaEvolution.Proofs.Arena.Order

namespace FormulaEvolution
namespace Arena

variable {a b : Arena} {p c i : NodeId} {n : Node}

/-! ## 1. Reading nodes -/

theorem node?_of_expect (h : a.expect i = .ok n) : a.node? i = some n := by
  unfold expect at h
  split at h
  · next m hm => rw [hm, Except.ok.inj h]
  · cases h

theorem childAt_ok {index : Int} (h : childAt n index = .ok c) :
    n.children[index.toNat]? = some c := by
  unfold childAt at h
  split at h
  · next d hd =>
    obtain rfl := Except.ok.inj h
    split at hd
    · cases hd
    · exact hd
  · cases h

theorem insertPosition_le (count : Nat) (index : Int) : insertPosition count index ≤ count := by
  unfold insertPosition
  split <;> omega

/-- A node whose symbol takes children is not a constant or a variable. -/
theorem Ordered.plain_of_room (h : a.Ordered) (hn : a.node? i = some n) (hroom : 0 < n.symbol.most) :
    n.form = .plain := by
  by_contra hform
  have := (h.leaves i n hn hform).1
  omega

/-- A node with children is not a constant or a variable. -/
theorem Ordered.plain_of_child (h : a.Ordered) (hn : a.node? i = some n) (hc : c ∈ n.children) :
    n.form = .plain := by
  by_contra hform
  rw [(h.leaves i n hn hform).2] at hc
  cases hc

theorem Ordered.child_lt (h : a.Ordered) (hn : a.node? p = some n) (hc : c ∈ n.children) :
    c < a.nodes.length := by
  rw [← childrenOf_of_node? hn] at hc
  exact (h.forest.within p c hc).2

/-- A child that is found is there. -/
theorem Ordered.childOf_lt {index : Int} (h : a.Ordered) (hc : a.childOf p index = .ok c) :
    c < a.nodes.length := by
  unfold childOf at hc
  obtain ⟨n, hexpect, hc⟩ := Except.bind_ok hc
  simp only at hc
  generalize (if index < 0 then (n.children.length : Int) + index else index) = place at hc
  split at hc
  · next d hd =>
    obtain rfl := Except.ok.inj hc
    split at hd
    · cases hd
    · exact h.child_lt (node?_of_expect hexpect) (List.mem_of_getElem? hd)
  · cases hc

/-! ## 2. Children -/

/-- Places after a child has been put between others. -/
theorem exchanged_insert {before after : List NodeId} (hp : p < a.nodes.length)
    (hc : c < a.nodes.length) (hwas : a.childrenOf p = before ++ after) :
    Exchanged a ((a.setChildren p (before ++ c :: after)).setParent c (some p)) p before [] [c]
      after where
  toRearranged := (rearranged_setChildren _).trans (rearranged_setParent _)
  was := by simpa using hwas
  children j := by rw [childrenOf_setParent, childrenOf_setChildren hp]; simp
  parent j := by
    rw [parentOf_setParent (by rwa [length_setChildren]), parentOf_setChildren]
    simp

/-- Places after a child has been taken out. -/
theorem exchanged_remove {before after : List NodeId} (hp : p < a.nodes.length)
    (hc : c < a.nodes.length) (hwas : a.childrenOf p = before ++ c :: after) :
    Exchanged a ((a.setChildren p (before ++ after)).setParent c none) p before [c] [] after where
  toRearranged := (rearranged_setChildren _).trans (rearranged_setParent _)
  was := by simpa using hwas
  children j := by rw [childrenOf_setParent, childrenOf_setChildren hp]; simp
  parent j := by
    rw [parentOf_setParent (by rwa [length_setChildren]), parentOf_setChildren]
    simp

/-- Places after a child has been put in place of another one. -/
theorem exchanged_replace {before after : List NodeId} {old : NodeId} (hp : p < a.nodes.length)
    (hc : c < a.nodes.length) (hold : old < a.nodes.length)
    (hwas : a.childrenOf p = before ++ old :: after) :
    Exchanged a (((a.setParent old none).setChildren p (before ++ c :: after)).setParent c (some p))
      p before [old] [c] after where
  toRearranged := ((rearranged_setParent _).trans (rearranged_setChildren _)).trans
    (rearranged_setParent _)
  was := by simpa using hwas
  children j := by
    rw [childrenOf_setParent, childrenOf_setChildren (by rwa [length_setParent])]
    simp
  parent j := by
    rw [parentOf_setParent (by rwa [length_setChildren, length_setParent]), parentOf_setChildren,
      parentOf_setParent hold]
    simp

/-- A node has joined one without a parent. -/
structure Attached (a b : Arena) (p c : NodeId) (before after : List NodeId) : Prop
    extends Exchanged a b p before [] [c] after where
  ordered : b.Ordered
  truthful : ∀ k, k ≠ p → a.Truthful k → b.Truthful k
  agrees : ∀ k, k ≠ p → Links.AgreesBelow b.links a.links k

/-- **A node without a parent may join another one without a parent.**  Nothing else is above the
place, so that nothing else has to forget. -/
theorem Ordered.attach {before after : List NodeId} (h : a.Ordered) (hn : a.node? p = some n)
    (hplain : n.form = .plain) (hp : n.parent = none) (hc : c < a.nodes.length)
    (horphan : a.parentOf c = none) (hne : c ≠ p) (hwas : a.childrenOf p = before ++ after) :
    Attached a ((a.setChildren p (before ++ c :: after)).setParent c (some p)) p c before after := by
  have hlt := node?_lt hn
  have htop : a.links.parent p = none := (parentOf_of_node? hn).trans hp
  have hexchanged := exchanged_insert hlt hc hwas
  have hjoin : ∀ x ∈ [c], a.links.MayJoin a.nodes.length p x := by
    intro x hx
    obtain rfl := List.mem_singleton.mp hx
    exact ⟨hc, horphan, fun hbelow => hne (h.forest.eq_of_below_orphan htop hbelow)⟩
  obtain ⟨hordered, htruthful⟩ := hexchanged.ordered h ⟨n, hn, hplain⟩ (List.nodup_singleton c) hjoin
  obtain ⟨hlinks, hforest⟩ := hexchanged.links_eq h.forest hlt (List.nodup_singleton c) hjoin
  have htop' : ((a.setChildren p (before ++ c :: after)).setParent c (some p)).parentOf p = none := by
    rw [parentOf_setParent (by rwa [length_setChildren]), if_neg (Ne.symm hne), parentOf_setChildren]
    exact htop
  have hapart : ∀ k, k ≠ p →
      ¬ ((a.setChildren p (before ++ c :: after)).setParent c (some p)).links.Below k p :=
    fun k hk hbelow => hk (hforest.eq_of_below_orphan htop' hbelow)
  refine ⟨hexchanged, hordered, fun k hk => htruthful k (hapart k hk), fun k hk => ?_⟩
  have := hapart k hk
  rw [hlinks] at this ⊢
  exact Links.Forest.agreesBelow_adopt this

theorem length_forgetUpward : (a.forgetUpward p).nodes.length = a.nodes.length :=
  length_forgetAll _

/-- **Adding a child keeps an arena sound.** -/
theorem Sound.insertChild {index : Int} {c? : Option NodeId} (h : a.Sound)
    (hc : ∀ c, c? = some c → a.links.MayJoin a.nodes.length p c)
    (hinsert : a.insertChild p index c? = .ok b) : b.Sound ∧ b.nodes.length = a.nodes.length := by
  unfold Arena.insertChild at hinsert
  obtain ⟨n, hexpect, hinsert⟩ := Except.bind_ok hinsert
  have hn := node?_of_expect hexpect
  match c? with
  | none => cases hinsert
  | some c =>
    have hjoin := hc c rfl
    simp only at hinsert
    split at hinsert
    · cases hinsert
    · next hroom =>
      obtain rfl := Except.ok.inj hinsert
      obtain ⟨before, after, hwas, hnow⟩ := split_of_insertIdx c
        (insertPosition_le n.children.length index)
      rw [hnow]
      have hexchanged := exchanged_insert (node?_lt hn) hjoin.there
        ((childrenOf_of_node? hn).trans hwas)
      refine ⟨hexchanged.sound h ⟨n, hn, h.plain_of_room hn (by omega)⟩ (List.nodup_singleton c) ?_, ?_⟩
      · intro x hx
        obtain rfl := List.mem_singleton.mp hx
        exact hjoin
      · rw [length_forgetUpward, hexchanged.count]

theorem Sound.addChild {c? : Option NodeId} (h : a.Sound)
    (hc : ∀ c, c? = some c → a.links.MayJoin a.nodes.length p c)
    (hadd : a.addChild p c? = .ok b) : b.Sound ∧ b.nodes.length = a.nodes.length := by
  unfold Arena.addChild at hadd
  obtain ⟨n, -, hinsert⟩ := Except.bind_ok hadd
  exact h.insertChild hc hinsert

/-- **Taking a child out keeps an arena sound.** -/
theorem Sound.removeChild {index : Int} (h : a.Sound)
    (hremove : a.removeChild p index = .ok (c, b)) :
    b.Sound ∧ b.nodes.length = a.nodes.length := by
  unfold Arena.removeChild at hremove
  obtain ⟨n, hexpect, hremove⟩ := Except.bind_ok hremove
  obtain ⟨d, hat, hremove⟩ := Except.bind_ok hremove
  have hn := node?_of_expect hexpect
  simp only at hremove
  split at hremove
  · cases hremove
  · obtain ⟨rfl, rfl⟩ := Prod.mk.inj (Except.ok.inj hremove)
    obtain ⟨before, after, hwas, hlength⟩ := split_of_getElem? (childAt_ok hat)
    have hchild : d ∈ n.children := by simp [hwas]
    have hlt := h.child_lt hn hchild
    rw [← hlength, hwas, eraseIdx_split]
    have hexchanged := exchanged_remove (node?_lt hn) hlt ((childrenOf_of_node? hn).trans hwas)
    exact ⟨hexchanged.sound h ⟨n, hn, h.plain_of_child hn hchild⟩ List.nodup_nil nofun,
      length_forgetUpward.trans hexchanged.count⟩

/-- **Exchanging a child keeps an arena sound.** -/
theorem Sound.replaceChild {index : Int} {c? : Option NodeId} {old : NodeId} (h : a.Sound)
    (hc : ∀ c, c? = some c → a.links.MayJoin a.nodes.length p c)
    (hreplace : a.replaceChild p index c? = .ok (old, b)) :
    b.Sound ∧ b.nodes.length = a.nodes.length := by
  unfold Arena.replaceChild at hreplace
  obtain ⟨n, hexpect, hreplace⟩ := Except.bind_ok hreplace
  have hn := node?_of_expect hexpect
  match c? with
  | none => cases hreplace
  | some c =>
    have hjoin := hc c rfl
    obtain ⟨d, hat, hreplace⟩ := Except.bind_ok hreplace
    obtain ⟨rfl, rfl⟩ := Prod.mk.inj (Except.ok.inj hreplace)
    obtain ⟨before, after, hwas, hlength⟩ := split_of_getElem? (childAt_ok hat)
    have hchild : d ∈ n.children := by simp [hwas]
    have hlt := h.child_lt hn hchild
    have hset : n.children.set index.toNat c = before ++ c :: after := by
      rw [← hlength, hwas, List.set_append_right _ _ (Nat.le_refl _), Nat.sub_self, List.set_cons_zero]
    rw [hset]
    have hexchanged := exchanged_replace (node?_lt hn) hjoin.there hlt
      ((childrenOf_of_node? hn).trans hwas)
    refine ⟨hexchanged.sound h ⟨n, hn, h.plain_of_child hn hchild⟩ (List.nodup_singleton c) ?_,
      length_forgetUpward.trans hexchanged.count⟩
    intro x hx
    obtain rfl := List.mem_singleton.mp hx
    exact hjoin

/-! ## 3. Symbols and values -/

/-- **A new symbol keeps an arena sound**, if it takes no children where it is one of a constant or a
variable. -/
theorem Sound.changeSymbol {s : Symbol} (h : a.Sound)
    (hs : ∀ n, a.node? i = some n → n.form ≠ .plain → s.isTerminal = true)
    (hchange : a.changeSymbol i s = .ok b) : b.Sound ∧ b.nodes.length = a.nodes.length := by
  unfold Arena.changeSymbol at hchange
  obtain ⟨m, -, hchange⟩ := Except.bind_ok hchange
  split at hchange
  · obtain rfl := Except.ok.inj hchange
    refine ⟨(h.alter fun n hn => ?_).1, length_alter a i _⟩
    exact {
      children := rfl
      parent := rfl
      leaf := fun hform => ⟨of_decide_eq_true (hs n hn hform), (h.leaves i n hn hform).2⟩
      truthful := ⟨(h.truthful i n hn).length, (h.truthful i n hn).depth⟩ }
  · cases hchange

/-- **A new value keeps an arena sound.** -/
theorem Sound.setValue (h : a.Sound) (value : Float) :
    (a.setValue i value).Sound ∧ (a.setValue i value).nodes.length = a.nodes.length := by
  refine ⟨(h.alter fun n hn => ?_).1, length_alter a i _⟩
  split
  · next hform =>
    exact {
      children := rfl
      parent := rfl
      leaf := fun _ => h.leaves i n hn (by rw [hform]; exact nofun)
      truthful := ⟨(h.truthful i n hn).length, (h.truthful i n hn).depth⟩ }
  · exact ⟨rfl, rfl, h.leaves i n hn, h.truthful i n hn⟩

/-! ## 4. Roots -/

/-- Other roots that are there keep an arena sound. -/
theorem Sound.withRoots {roots : List (Option NodeId)} (h : a.Sound)
    (hroots : ∀ i, some i ∈ roots → i < a.nodes.length) : ({ a with roots } : Arena).Sound where
  forest := h.forest
  leaves := h.leaves
  roots t i ht := by
    exact hroots i (List.mem_of_getElem? (Option.join_eq_some_iff.mp ht))
  truthful := h.truthful

/-- Trees have roots that are there. -/
theorem Ordered.root_lt (h : a.Ordered) (hi : some i ∈ a.roots) : i < a.nodes.length := by
  obtain ⟨t, ht⟩ := List.mem_iff_getElem?.mp hi
  exact h.roots t i (by rw [root?, ht, Option.join_some])

/-- **A new root keeps an arena sound.** -/
theorem Sound.setRoot {t : TreeId} {i? : Option NodeId} (h : a.Sound)
    (hi : ∀ i, i? = some i → i < a.nodes.length ∧ a.parentOf i = none)
    (hset : a.setRoot t i? = .ok b) : b.Sound ∧ b.nodes.length = a.nodes.length := by
  unfold Arena.setRoot at hset
  match i? with
  | none => cases hset
  | some i =>
    obtain ⟨hlt, horphan⟩ := hi i rfl
    simp only [setParent_of_orphan horphan] at hset
    obtain rfl := Except.ok.inj hset
    refine ⟨h.withRoots fun j hj => ?_, rfl⟩
    rcases List.mem_or_eq_of_mem_set hj with hj | hj
    · exact h.root_lt hj
    · exact Option.some.inj hj ▸ hlt

theorem Sound.allocateTree {root : Option NodeId} (h : a.Sound)
    (hroot : ∀ i, root = some i → i < a.nodes.length) :
    (a.allocateTree root).2.Sound ∧ (a.allocateTree root).2.nodes.length = a.nodes.length := by
  refine ⟨h.withRoots fun j hj => ?_, rfl⟩
  rcases List.mem_append.mp hj with hj | hj
  · exact h.root_lt hj
  · exact hroot j (List.mem_singleton.mp hj).symm

/-- **A new tree keeps an arena sound.** -/
theorem Sound.newTree {i? : Option NodeId} (h : a.Sound)
    (hi : ∀ i, i? = some i → i < a.nodes.length ∧ a.parentOf i = none) :
    (a.newTree i?).2.Sound ∧ (a.newTree i?).2.nodes.length = a.nodes.length := by
  match i? with
  | none => exact h.allocateTree nofun
  | some i =>
    obtain ⟨hlt, horphan⟩ := hi i rfl
    simp only [Arena.newTree, setParent_of_orphan horphan]
    exact h.allocateTree fun j hj => Option.some.inj hj ▸ hlt

/-- **Putting a node where another one stands keeps an arena sound.**  At the root it must have no
parent; below a parent it must be one that may join there. -/
theorem Sound.replaceNode {t : TreeId} {old new : Option NodeId} (h : a.Sound)
    (hroot : ∀ i, new = some i → i < a.nodes.length ∧ a.parentOf i = none)
    (hbelow : ∀ c i p, new = some c → old = some i → old ≠ a.root? t → a.parentOf i = some p →
      ¬ a.links.Below c p)
    (hreplace : a.replaceNode t old new = .ok b) : b.Sound ∧ b.nodes.length = a.nodes.length := by
  unfold Arena.replaceNode at hreplace
  split at hreplace
  · exact h.setRoot hroot hreplace
  · next hnot =>
    match old with
    | none => cases hreplace
    | some i =>
      simp only at hreplace
      split at hreplace
      · cases hreplace
      · next p index hplace =>
        obtain ⟨q, hq, hindex⟩ := Option.bind_eq_some_iff.mp hplace
        obtain ⟨k, -, hpair⟩ := Option.map_eq_some_iff.mp hindex
        obtain ⟨rfl, rfl⟩ := Prod.mk.inj hpair
        cases hresult : a.replaceChild q k new with
        | error failure => rw [hresult] at hreplace; cases hreplace
        | ok result =>
          obtain ⟨old, c'⟩ := result
          rw [hresult] at hreplace
          obtain rfl := Except.ok.inj hreplace
          refine h.replaceChild (fun c hc => ?_) hresult
          exact ⟨(hroot c hc).1, (hroot c hc).2, hbelow c i q hc rfl hnot hq⟩

end Arena
end FormulaEvolution
