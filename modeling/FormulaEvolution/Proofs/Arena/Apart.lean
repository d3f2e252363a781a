/-
# Copies apart

A copy of a proper tree is the same tree made of new nodes (`Arena.TreeCopied`), and what is done to the
nodes of either, or to nodes of neither, is not seen at the other one (`Session.copy_stands_apart`).  This
comes from two sides: no link leads into a proper tree, so that steps which name other nodes leave its
nodes as they are (`Session.sameLooks_through`), and the nodes that come with a copy are linked with each
other only, so that the origin stays such a tree beside it.

A copy remembers what its origin remembers.  A tree whose nodes were shared once, and which has forgotten
too little since, hands its false length on to its copy (`Session.stale_copy`).
-/
import FormulaEvolution.Proofs.Arena.Duplicate
import FormulaEvolution.Proofs.Arena.Names

namespace FormulaEvolution
namespace Arena

variable {a b : Arena} {k m r : NodeId} {u v : TreeId} {f : NodeId → NodeId}

/-! ## 1. Copies of trees -/

/-- A tree is a copy of another one: it is new, and its nodes are the nodes of the other one under new
names, which no node had, with the same forms, symbols and memories and in the same order.  It is proper,
the same tree is read from it, and its nodes remember nothing false that the others do not.  All else is as
it was. -/
structure TreeCopied (a b : Arena) (u v : TreeId) (f : NodeId → NodeId) : Prop where
  root : b.root? v = (a.root? u).map f
  holds : ∀ m, b.InTree v m ↔ ∃ k, a.InTree u k ∧ f k = m
  node : ∀ k, a.InTree u k → b.node? (f k) = (a.node? k).map (Node.renamed f)
  apart : ∀ i k, a.InTree u i → a.InTree u k → f i = f k → i = k
  proper : b.ProperTree v
  read : b.toTree? v = a.toTree? u
  truthful : ∀ k, a.InTree u k → a.Truthful k → b.Truthful (f k)
  fresh : a.roots.length ≤ v ∧ ∀ k, a.InTree u k → a.nodes.length ≤ f k
  only : ∀ m, a.nodes.length ≤ m → m < b.nodes.length → b.InTree v m
  nodes : ∀ k, k < a.nodes.length → b.node? k = a.node? k
  roots : ∀ t, t < a.roots.length → b.root? t = a.root? t

theorem InTree.iff_below (hr : a.root? u = some r) : a.InTree u k ↔ a.links.Below r k :=
  ⟨fun ⟨_, hr', hk⟩ => Option.some.inj (hr'.symm.trans hr) ▸ hk, fun hk => ⟨r, hr, hk⟩⟩

theorem not_inTree (hr : a.root? u = none) : ¬ a.InTree u k := by
  rintro ⟨r, hr', -⟩
  rw [hr] at hr'
  cases hr'

theorem root?_allocateTree_of_lt {i : Option NodeId} (hu : u < a.roots.length) :
    (a.allocateTree i).2.root? u = a.root? u := by
  rw [allocateTree, root?, root?, List.getElem?_append_left hu]

/-- The copy of a tree without a root has no root. -/
theorem treeCopied_of_rootless (hr : a.root? u = none) :
    TreeCopied a (a.allocateTree none).2 u (a.allocateTree none).1 id := by
  have hnone : (a.allocateTree none).2.root? (a.allocateTree none).1 = none := root?_allocateTree none
  have hempty : ∀ k, ¬a.InTree u k := fun _ => not_inTree hr
  exact {
    root := by rw [hr, hnone, Option.map_none]
    holds := fun m => iff_of_false (not_inTree hnone) fun h => h.elim fun k hk => hempty k hk.1
    node := fun k hk => absurd hk (hempty k)
    apart := fun i k hi => absurd hi (hempty i)
    proper := fun r hr' => by rw [hnone] at hr'; cases hr'
    read := by rw [toTree?, toTree?, hr, hnone]
    truthful := fun k hk => absurd hk (hempty k)
    fresh := ⟨Nat.le_refl _, fun k hk => absurd hk (hempty k)⟩
    only := fun m hle hlt => absurd hlt (Nat.not_lt.mpr hle)
    nodes := fun _ _ => rfl
    roots := fun t ht => root?_allocateTree_of_lt ht }

/-- A new tree with the copy of its root is a copy of a tree. -/
theorem Doubled.treeCopied (h : Doubled a b r f) (hp : a.Proper r) (hclosed : a.Closed)
    (hr : a.root? u = some r) (hroots : b.roots = a.roots) :
    TreeCopied a (b.allocateTree (some (f r))).2 u (b.allocateTree (some (f r))).1 f := by
  obtain ⟨d, hd⟩ : ∃ d, d = (b.allocateTree (some (f r))).2 := ⟨_, rfl⟩
  have hcopy : Doubled a d r f := by
    subst hd
    exact ⟨h.old, h.node, h.new, h.only, h.apart, h.grown⟩
  have hroot : d.root? (b.allocateTree (some (f r))).1 = some (f r) := by
    rw [hd]
    exact root?_allocateTree _
  have hnew : a.roots.length ≤ (b.allocateTree (some (f r))).1 := hroots ▸ Nat.le_refl _
  have hbelow : ∀ {k}, a.InTree u k → a.links.Below r k := (InTree.iff_below hr).mp
  rw [← hd]
  exact {
    root := by rw [hr, hroot, Option.map_some]
    holds := fun m => by
      rw [InTree.iff_below hroot, hcopy.below_iff .refl]
      simp only [InTree.iff_below hr]
    node := fun k hk => hcopy.node k (hbelow hk)
    apart := fun i k hi hk => hcopy.apart i k (hbelow hi) (hbelow hk)
    proper := fun j hj => by
      obtain rfl := Option.some.inj (hroot.symm.trans hj)
      exact hcopy.proper hp hclosed.shut
    read := by
      rw [toTree?, toTree?, hr, hroot]
      simp only [hcopy.toTree_eq hp .refl]
    truthful := fun k hk => hcopy.truthful (hbelow hk)
    fresh := ⟨hnew, fun k hk => hcopy.new k (hbelow hk)⟩
    only := fun m hle hlt => (InTree.iff_below hroot).mpr ((hcopy.below_iff .refl).mpr
      (hcopy.only m hle hlt))
    nodes := hcopy.old
    roots := fun t ht => by
      rw [hd, root?_allocateTree_of_lt (hroots ▸ ht), root?, root?, hroots] }

/-- **A copy of a proper tree is the same tree, made of new nodes.** -/
theorem ProperTree.copied (h : a.ProperTree u) (hclosed : a.Closed) :
    ∃ f, TreeCopied a (a.copyTree u).2 u (a.copyTree u).1 f := by
  cases hr : a.root? u with
  | none =>
    rw [copyTree, hr]
    exact ⟨id, treeCopied_of_rootless hr⟩
  | some r =>
    obtain ⟨f, hf, hdoubled⟩ := (h r hr).doubled
    rw [copyTree_of_root hr, hf]
    exact ⟨f, hdoubled.treeCopied (h r hr) hclosed hr
      (roots_copyWithin (a.nodes.length + 1) r ⟨a, []⟩)⟩

/-- No link leads into the origin of a copy. -/
theorem TreeCopied.shut_origin (h : TreeCopied a b u v f) (hproper : a.ProperTree u) :
    Shut (a.InTree u) b := by
  intro i n hi hn
  have hapart : ∀ m, b.InTree v m → ¬ a.InTree u m := by
    rintro m hm hin
    obtain ⟨k, hk, rfl⟩ := (h.holds m).mp hm
    exact Nat.not_lt_of_le (h.fresh.2 k hk) (hproper.lt_of_inTree hin)
  rcases Nat.lt_or_ge i a.nodes.length with hlt | hge
  · exact hproper.shut i n hi ((h.nodes i hlt).symm.trans hn)
  · have hin := h.only i hge (node?_lt hn)
    constructor
    · intro c hc
      exact hapart c (hin.child (by rwa [childrenOf_of_node? hn]))
    · intro p hp
      obtain ⟨j, hj, hij⟩ := hin
      have hparent : b.parentOf i = some p := (parentOf_of_node? hn).trans hp
      exact hapart p ⟨j, hj, (h.proper j hj).below_parent hij hparent⟩

end Arena

/-! ## 2. Steps beside a tree -/

namespace Session

open Arena

variable {s : Session} {u : TreeId}

/-- **A proper tree looks the same whatever is done to other nodes**, also where other nodes have come since
it was seen. -/
theorem sameLooks_through {a : Arena} {steps : List Step} (hproper : a.ProperTree u)
    (hu : u < s.arena.roots.length) (hshut : Shut (a.InTree u) s.arena)
    (hsame : ∀ k, a.InTree u k → s.arena.node? k = a.node? k) (hroot : s.arena.root? u = a.root? u)
    (hle : a.nodes.length ≤ s.arena.nodes.length) (h : Avoids (a.InTree u) (· = u) s steps) :
    SameLooks a (s.through steps).arena u := by
  obtain ⟨hguards, hlasts⟩ := guards_through h hshut fun k hk => (hproper.lt_of_inTree hk).trans_le hle
  exact hproper.sameLooks ((hlasts.roots u rfl hu).trans hroot)
    (fun k hk => (hguards.spared k hk).trans (hsame k hk)) (hle.trans hlasts.nodes)

/-- What copying a tree comes to. -/
theorem advance_copy {t : String} (into : String) (hname : s.names.value? t = some (.tree u)) :
    s.advance (.copy (some t) into) = (.ok .done, { s with
      arena := (s.arena.copyTree u).2,
      names := s.names.bind into (.tree (s.arena.copyTree u).1) }) := by
  have hitem : (item (some t)).run s = (.ok (.tree u), s) := by rw [run_item, itemOf, hname]
  change (item (some t) >>= _).run s = _
  rw [run_bind_ok hitem]
  rfl

/-- **A copy of a proper tree stands apart.**  It is the same tree made of new nodes, with parents and
children that agree, a root without a parent, and memories that are true where those of the tree are.  And
whatever is done later to nodes that are not in the tree, it looks as it did before it was copied; and
whatever is done later to nodes that are not in the copy, the copy looks as it did when it was made. -/
theorem copy_stands_apart (g : Grammar) (steps : List Step) (into : String) {t : String} {u : TreeId}
    (hname : (after g steps).names.value? t = some (.tree u))
    (hproper : (after g steps).arena.ProperTree u) :
    ∃ s v f, (after g steps).advance (.copy (some t) into) = (.ok .done, s) ∧
      s.names.value? into = some (.tree v) ∧ TreeCopied (after g steps).arena s.arena u v f ∧
      (∀ later, s.Avoids ((after g steps).arena.InTree u) (· = u) later →
        SameLooks (after g steps).arena (s.through later).arena u) ∧
      ∀ later, s.Avoids (s.arena.InTree v) (· = v) later →
        SameLooks s.arena (s.through later).arena v := by
  have hclosed := closed_after g steps
  obtain ⟨s₀, hs₀⟩ : ∃ s₀, s₀ = after g steps := ⟨_, rfl⟩
  rw [← hs₀] at hname hproper hclosed ⊢
  obtain ⟨f, hcopied⟩ := hproper.copied hclosed.arena
  have hadvance := advance_copy into hname
  obtain ⟨s, hs⟩ : ∃ s, s = (s₀.advance (.copy (some t) into)).2 := ⟨_, rfl⟩
  have hthere := closed_advance hclosed (.copy (some t) into)
  rw [← hs] at hthere
  have harena : s.arena = (s₀.arena.copyTree u).2 := by rw [hs, hadvance]
  have hnamed : s.names.value? into = some (.tree (s₀.arena.copyTree u).1) := by
    rw [hs, hadvance, Dictionary.value?_bind, if_pos rfl]
  rw [← harena] at hcopied
  have hu : u < s₀.arena.roots.length := hclosed.named t (.tree u) hname
  refine ⟨s, _, f, by rw [hs, hadvance], hnamed, hcopied, fun later hlater => ?_, fun later hlater => ?_⟩
  · have hgrown : s₀.arena.nodes.length ≤ s.arena.nodes.length ∧
        s₀.arena.roots.length ≤ s.arena.roots.length := by
      rw [harena]
      have hlasts : Lasts (fun _ => False) (fun _ => False) s₀.arena (s₀.arena.copyTree u).2 :=
        lasts_copyTree fun _ _ => not_false
      exact ⟨hlasts.nodes, hlasts.trees⟩
    exact sameLooks_through hproper (hu.trans_le hgrown.2) (hcopied.shut_origin hproper)
      (fun k hk => hcopied.nodes k (hproper.lt_of_inTree hk)) (hcopied.roots u hu) hgrown.1 hlater
  · exact sameLooks_through hcopied.proper (hthere.named into (.tree _) hnamed) hcopied.proper.shut
      (fun _ _ => rfl) rfl (Nat.le_refl _) hlater

/-- The nodes that a step names, and the roots of the trees that it names. -/
def touched (s : Session) (step : Step) : List NodeId :=
  step.refs.flatMap fun r =>
    match s.itemOf r with
    | .ok (.node i) => [i]
    | .ok (.tree t) => (s.arena.root? t).toList
    | _ => []

theorem mem_touched {step : Step} {i : NodeId} (h : s.Touches step i) : i ∈ s.touched step := by
  obtain ⟨r, hr, hitem | ⟨t, hitem, hroot⟩⟩ := h
  · exact List.mem_flatMap.mpr ⟨r, hr, by rw [hitem]; exact List.mem_singleton_self i⟩
  · exact List.mem_flatMap.mpr ⟨r, hr, by simp only [hitem, hroot]; exact List.mem_singleton_self i⟩

/-- The trees that a step names. -/
def touchedTrees (s : Session) (step : Step) : List TreeId :=
  step.refs.filterMap fun r =>
    match s.itemOf r with
    | .ok (.tree t) => some t
    | _ => none

theorem mem_touchedTrees {step : Step} {t : TreeId} (h : s.TouchesTree step t) :
    t ∈ s.touchedTrees step := by
  obtain ⟨r, hr, hitem⟩ := h
  exact List.mem_filterMap.mpr ⟨r, hr, by rw [hitem]⟩

/-- Steps are performed, none of which names one of some nodes or trees. -/
def sparing (is : List NodeId) (ts : List TreeId) : Session → List Step → Bool
  | _, [] => true
  | s, step :: steps => (s.touched step).all (· ∉ is) && (s.touchedTrees step).all (· ∉ ts) &&
    sparing is ts (s.advance step).2 steps

theorem avoids_of_sparing {X : NodeId → Prop} {T : TreeId → Prop} (is : List NodeId) (ts : List TreeId)
    (hX : ∀ i, X i → i ∈ is) (hT : ∀ t, T t → t ∈ ts) : ∀ {s : Session} {steps : List Step},
      sparing is ts s steps = true → Avoids X T s steps
  | _, [], _ => .nil
  | s, step :: steps, h => by
    rw [sparing, Bool.and_eq_true, Bool.and_eq_true] at h
    obtain ⟨⟨hnodes, htrees⟩, hrest⟩ := h
    refine .cons (fun i hi hXi => ?_) (fun t ht hTt => ?_) (avoids_of_sparing is ts hX hT hrest)
    · exact of_decide_eq_true (List.all_eq_true.mp hnodes i (mem_touched hi)) (hX i hXi)
    · exact of_decide_eq_true (List.all_eq_true.mp htrees t (mem_touchedTrees ht)) (hT t hTt)

/-- A tree with the mean of two constants, and a third constant. -/
def planting : List Step :=
  [.plain "mean" "Mean", .constant "two" 2.0 "Constant", .constant "three" 3.0 "Constant",
    .constant "four" 4.0 "Constant", .add (some "mean") (some "two"), .add (some "mean") (some "three"),
    .plant "tree" (some "mean"), .length (some "tree")]

/-- The root of the copy loses a child and gets another one. -/
def pruning : List Step :=
  [.root (some "copy") "top", .remove (some "top") 0, .add (some "top") (some "four")]

/-- The mean is copied, and looks as before after its copy has been pruned. -/
theorem pruned_copy_apart : ∃ s v f,
    (after .short planting).advance (.copy (some "tree") "copy") = (.ok .done, s) ∧
      TreeCopied (after .short planting).arena s.arena 0 v f ∧
      SameLooks (after .short planting).arena (s.through pruning).arena 0 := by
  have hroot : (after .short planting).arena.root? 0 = some 0 := by decide +kernel
  have hproper : (after .short planting).arena.ProperTree 0 := by
    intro r hr
    obtain rfl := Option.some.inj (hroot.symm.trans hr)
    exact proper_of_all [0, 1, 2] (by decide) (by decide +kernel) (by decide +kernel)
  have hname : (after .short planting).names.value? "tree" = some (.tree 0) := by decide +kernel
  obtain ⟨s, v, f, hrun, -, hcopied, horigin, -⟩ := copy_stands_apart .short planting "copy" hname hproper
  refine ⟨s, v, f, hrun, hcopied, horigin pruning ?_⟩
  obtain rfl : ((after .short planting).advance (.copy (some "tree") "copy")).2 = s :=
    congrArg Prod.snd hrun
  refine avoids_of_sparing [0, 1, 2] [0] (fun k hk => ?_)
    (fun _ ht => List.mem_singleton.mpr ht) (by decide +kernel)
  exact mem_of_below (by decide) (by decide +kernel) ((InTree.iff_below hroot).mp hk)

/-- A mean is shared and asked for its length from one side, gets a child that is told to the other side,
and is copied with what the first side has remembered. -/
def sharing : List Step :=
  [.plain "first" "Mean", .plain "second" "Mean", .plain "shared" "Mean", .constant "one" 1.0 "Constant",
    .add (some "first") (some "shared"), .add (some "second") (some "shared"), .length (some "first"),
    .add (some "shared") (some "one"), .copy (some "first") "chain", .plant "tree" (some "chain")]

/-- The chain of three nodes is a proper tree, and its copy is one of three nodes that remembers, and
answers, that they are two. -/
theorem stale_copy : (after .short sharing).names.value? "tree" = some (.tree 0) ∧
    (after .short sharing).arena.ProperTree 0 ∧
    (after .short (sharing ++ [.copy (some "tree") "copy"])).names.value? "copy" = some (.tree 1) ∧
    (after .short (sharing ++ [.copy (some "tree") "copy"])).arena.root? 1 = some 7 ∧
    (after .short (sharing ++ [.copy (some "tree") "copy"])).arena.links.size 7 = 3 ∧
    ((Arena.askTreeLength 1).run (after .short (sharing ++ [.copy (some "tree") "copy"])).arena).1.toOption =
      some 2 ∧
    ¬(after .short (sharing ++ [.copy (some "tree") "copy"])).arena.Truthful 7 := by
  have hroot : (after .short sharing).arena.root? 0 = some 4 := by decide +kernel
  have hproper : (after .short sharing).arena.ProperTree 0 := by
    intro r hr
    obtain rfl := Option.some.inj (hroot.symm.trans hr)
    exact proper_of_all [4, 5, 6] (by decide) (by decide +kernel) (by decide +kernel)
  obtain ⟨a, ha⟩ : ∃ a, a = (after .short (sharing ++ [.copy (some "tree") "copy"])).arena := ⟨_, rfl⟩
  have hcopy : a.Proper 7 := by
    rw [ha]
    exact proper_of_all [7, 8, 9] (by decide) (by decide +kernel) (by decide +kernel)
  have hchildren : a.childrenOf 7 = [8] ∧ a.childrenOf 8 = [9] ∧ a.childrenOf 9 = [] := by
    rw [ha]
    decide +kernel
  have hfirst : a.links.Below 7 8 := .single (hchildren.1 ▸ List.mem_singleton_self 8 : 8 ∈ a.childrenOf 7)
  have hsecond : a.links.Below 7 9 :=
    hfirst.tail (hchildren.2.1 ▸ List.mem_singleton_self 9 : 9 ∈ a.childrenOf 8)
  have hsize : a.links.size 7 = 3 := by
    rw [hcopy.size_eq .refl, hchildren.1, List.map_singleton, hcopy.size_eq hfirst, hchildren.2.1,
      List.map_singleton, hcopy.size_eq hsecond, hchildren.2.2]
    rfl
  have hremembers : (a.node? 7).bind (·.knownLength) = some 2 := by
    rw [ha]
    decide +kernel
  rw [ha] at hsize
  refine ⟨by decide +kernel, hproper, by decide +kernel, by decide +kernel, hsize, by decide +kernel,
    fun htrue => ?_⟩
  obtain ⟨n, hn, hknown⟩ := Option.bind_eq_some_iff.mp hremembers
  rw [ha] at hn
  have hlength := (htrue n hn).length 2 hknown
  rw [hsize] at hlength
  cases hlength

end Session
end FormulaEvolution
