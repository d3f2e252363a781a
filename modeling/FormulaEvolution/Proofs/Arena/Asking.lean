/-
# Lengths and depths that are asked for

A sound arena answers with the true length and the true height of every node, and is left as it was
but for what nodes remember (`Sound.askLength`, `Sound.askDepth`).

Both are quantities that come out of those of the children (`Arena.Quantity`); what is remembered of
either is found and used while the other nodes are asked, and is true since it was so before.
-/
import FormulaEvolution.Proofs.Arena.Change

namespace FormulaEvolution
namespace Arena

/-! ## 1. Quantities -/

/-- What nodes can be asked for: how they know it, how they remember it, and how it comes out of what
their children answer. -/
structure Quantity where
  known : Node → Option Nat
  remember : Nat → Node → Node
  combine : List Nat → Nat

namespace Quantity

/-- Ask a node and, where it does not know, its children. -/
def askOnce (q : Quantity) (askChild : NodeId → Asking Nat) (i : NodeId) : Asking Nat := do
  let n ← (← get).expect i
  match q.known n with
  | some known => return known
  | none =>
    let below ← n.children.mapM askChild
    let total := q.combine below
    modify (·.alter i (q.remember total))
    return total

/-- Ask a node and, where it does not know, the nodes below. -/
def askWithin (q : Quantity) : Nat → NodeId → Asking Nat
  | 0, _ => throw .endless
  | bound + 1, i => q.askOnce (q.askWithin bound) i

/-- The number of nodes. -/
def length : Quantity where
  known := Node.knownLength
  remember k n := { n with knownLength := some k }
  combine ks := 1 + ks.sum

/-- The number of levels. -/
def depth : Quantity where
  known := Node.knownDepth
  remember k n := { n with knownDepth := some k }
  combine ks := 1 + ks.foldl max 0

/-- A quantity is a true one of the links below a node. -/
structure Tells (q : Quantity) (truth : Links → NodeId → Nat → Prop) : Prop where
  known : ∀ {l i n k}, n.Truthful l i → q.known n = some k → truth l i k
  remember : ∀ {l i k} {n : Node}, n.Truthful l i → truth l i k →
    (n.form ≠ .plain → n.symbol.most = 0 ∧ n.children = []) → Fit l i n (q.remember k n)
  combine : ∀ {l m i ks}, l.Forest m → List.Forall₂ (truth l) (l.children i) ks →
    truth l i (q.combine ks)

theorem tells_length : length.Tells fun l i k => k = l.size i where
  known h hk := h.length _ hk
  remember h hk hleaf := ⟨rfl, rfl, hleaf, fun _ heq => (Option.some.inj heq) ▸ hk, h.depth⟩
  combine h hks := by
    rename_i l _ i ks
    have hsizes : ks = (l.children i).map l.size := by
      generalize l.children i = cs at hks
      induction hks with
      | nil => rfl
      | cons hk _ ih => rw [List.map_cons, hk, ih]
    rw [h.size_eq, length, hsizes]

theorem tells_depth : depth.Tells Links.IsHeight where
  known h hk := h.depth _ hk
  remember h hk hleaf := ⟨rfl, rfl, hleaf, h.length, fun _ heq => (Option.some.inj heq) ▸ hk⟩
  combine _ hks := Links.isHeight_of_children hks

end Quantity

theorem askLengthWithin_eq : ∀ bound, askLengthWithin bound = Quantity.length.askWithin bound
  | 0 => rfl
  | bound + 1 => congrArg Quantity.length.askOnce (askLengthWithin_eq bound)

theorem askDepthWithin_eq : ∀ bound, askDepthWithin bound = Quantity.depth.askWithin bound
  | 0 => rfl
  | bound + 1 => congrArg Quantity.depth.askOnce (askDepthWithin_eq bound)

/-! ## 2. Answers -/

/-- A sound arena that differs from another one in what nodes remember only. -/
structure Recalled (a b : Arena) : Prop where
  sound : b.Sound
  links : b.links = a.links
  count : b.nodes.length = a.nodes.length
  roots : b.roots = a.roots

section Answers

variable {a b : Arena} {i : NodeId} {q : Quantity} {truth : Links → NodeId → Nat → Prop}

theorem Recalled.refl (h : a.Sound) : Recalled a a := ⟨h, rfl, rfl, rfl⟩

theorem Recalled.trans {d : Arena} (h : Recalled a b) (h' : Recalled b d) : Recalled a d :=
  ⟨h'.sound, h'.links.trans h.links, h'.count.trans h.count, h'.roots.trans h.roots⟩

/-- Questions to several nodes, each of which is answered with the truth. -/
theorem mapM_answered {f : NodeId → Asking Nat} {R : NodeId → Nat → Prop} {P : Arena → Prop} :
    ∀ {cs : List NodeId}, (∀ c ∈ cs, ∀ a, P a → ∃ k b, (f c).run a = (.ok k, b) ∧ R c k ∧ P b) →
      ∀ a, P a → ∃ ks b, (cs.mapM f).run a = (.ok ks, b) ∧ List.Forall₂ R cs ks ∧ P b
  | [], _, a, ha => ⟨[], a, rfl, .nil, ha⟩
  | c :: cs, hf, a, ha => by
    obtain ⟨k, b, hrun, hk, hb⟩ := hf c List.mem_cons_self a ha
    obtain ⟨ks, d, hrun', hks, hd⟩ :=
      mapM_answered (fun c' hc' => hf c' (List.mem_cons_of_mem c hc')) b hb
    refine ⟨k :: ks, d, ?_, .cons hk hks, hd⟩
    rw [List.mapM_cons, run_bind_ok hrun, run_bind_ok hrun']
    rfl

/-- **A sound arena answers with the truth.**  The induction is on the bound, which is enough for all
nodes below; the answers of the children are true of the links, which no answer changes. -/
theorem Quantity.ask_ok (hq : q.Tells truth) (h : a.links.Forest a.nodes.length) :
    ∀ {bound i}, i < a.nodes.length → a.links.size i ≤ bound → ∀ b, Recalled a b →
      ∃ k d, (q.askWithin bound i).run b = (.ok k, d) ∧ truth a.links i k ∧ Recalled a d
  | 0, i, _, hbound, _, _ => absurd (h.size_pos i) (by omega)
  | bound + 1, i, hi, hbound, b, hb => by
    obtain ⟨n, hn⟩ := exists_node? (hb.count.symm ▸ hi)
    have hexpect : b.expect i = .ok n := by rw [expect, hn]
    have htruthful := hb.sound.truthful i n hn
    rw [hb.links] at htruthful
    rw [askWithin, askOnce, run_get_bind, hexpect]
    cases hknown : q.known n with
    | some known =>
      refine ⟨known, b, ?_, hq.known htruthful hknown, hb⟩
      rw [run_liftM_ok_bind, hknown]
      rfl
    | none =>
      have hchildren : n.children = a.links.children i := by
        rw [← childrenOf_of_node? hn, ← hb.links]
        rfl
      have hanswered : ∀ c ∈ n.children, ∀ b', Recalled a b' →
          ∃ k d, (q.askWithin bound c).run b' = (.ok k, d) ∧ truth a.links c k ∧ Recalled a d := by
        intro c hc b' hb'
        rw [hchildren] at hc
        have hsize := h.size_lt hc
        exact ask_ok hq h (h.within i c hc).2 (by omega) b' hb'
      obtain ⟨ks, d, hrun, hks, hd⟩ := mapM_answered hanswered b hb
      rw [hchildren] at hks
      have htotal := hq.combine h hks
      obtain ⟨hsound, hlinks⟩ := hd.sound.alter (i := i) (f := q.remember (q.combine ks)) fun m hm => by
        rw [hd.links]
        refine hq.remember ?_ htotal (hd.sound.leaves i m hm)
        rw [← hd.links]
        exact hd.sound.truthful i m hm
      refine ⟨q.combine ks, d.alter i (q.remember (q.combine ks)), ?_, htotal, hsound,
        hlinks.trans hd.links, (length_alter d i _).trans hd.count, hd.roots⟩
      rw [run_liftM_ok_bind, hknown, run_bind_ok hrun, run_modify_bind]
      rfl

theorem size_le_pathBound (h : a.links.Forest a.nodes.length) (hi : i < a.nodes.length) :
    a.links.size i ≤ a.pathBound := by
  have := h.size_le hi
  rw [pathBound]
  omega

/-- **The length that a node answers with is the number of nodes below and including it.** -/
theorem Sound.askLength (h : a.Sound) (hi : i < a.nodes.length) :
    ∃ b, (Arena.askLength i).run a = (.ok (a.links.size i), b) ∧ Recalled a b := by
  rw [Arena.askLength, run_get_bind, askLengthWithin_eq]
  obtain ⟨_, b, hrun, rfl, hb⟩ := Quantity.ask_ok Quantity.tells_length h.forest hi
    (size_le_pathBound h.forest hi) a (.refl h)
  exact ⟨b, hrun, hb⟩

/-- **The depth that a node answers with is its height.** -/
theorem Sound.askDepth (h : a.Sound) (hi : i < a.nodes.length) :
    ∃ d b, (Arena.askDepth i).run a = (.ok d, b) ∧ a.links.IsHeight i d ∧ Recalled a b := by
  rw [Arena.askDepth, run_get_bind, askDepthWithin_eq]
  exact Quantity.ask_ok Quantity.tells_depth h.forest hi (size_le_pathBound h.forest hi) a (.refl h)

end Answers

/-! ## 3. Questions about trees -/

/-- Whatever a question comes to, it leaves a sound arena as it was but for what nodes remember. -/
def Asking.Recalls {α : Type} (ask : Asking α) : Prop :=
  ∀ a : Arena, a.Sound → Recalled a (ask.run a).2

section Trees

variable {α β : Type}

theorem Asking.recalls_bind {first : Asking α} {next : α → Asking β} (hfirst : first.Recalls)
    (hnext : ∀ k, (next k).Recalls) : (first >>= next).Recalls := by
  intro a ha
  have hb := hfirst a ha
  match hrun : first.run a with
  | (.ok k, b) =>
    rw [hrun] at hb
    rw [run_bind_ok hrun]
    exact hb.trans (hnext k b hb.sound)
  | (.error failure, b) =>
    rw [hrun] at hb
    rwa [run_bind_error hrun]

/-- A question that looks at the arena only. -/
theorem Asking.recalls_of_fixed {ask : Asking α} (h : ∀ a, (ask.run a).2 = a) : ask.Recalls := by
  intro a ha
  rw [h]
  exact .refl ha

theorem recalls_askTreeLength (t : TreeId) : (askTreeLength t).Recalls := by
  intro a ha
  rw [askTreeLength, run_get_bind]
  cases hroot : a.root? t with
  | none => exact .refl ha
  | some i =>
    obtain ⟨b, hrun, hb⟩ := ha.askLength (ha.roots t i hroot)
    simpa only [hrun] using hb

theorem recalls_askTreeDepth (t : TreeId) : (askTreeDepth t).Recalls := by
  intro a ha
  rw [askTreeDepth, run_get_bind]
  cases hroot : a.root? t with
  | none => exact .refl ha
  | some i =>
    obtain ⟨d, b, hrun, -, hb⟩ := ha.askDepth (ha.roots t i hroot)
    simpa only [hrun] using hb

theorem recalls_askDescription (t : TreeId) : (askDescription t).Recalls :=
  Asking.recalls_bind (recalls_askTreeLength t) fun _ =>
    Asking.recalls_bind (recalls_askTreeDepth t) fun _ => Asking.recalls_of_fixed fun _ => rfl

theorem recalls_askDocument (t : TreeId) : (askDocument t).Recalls := by
  refine Asking.recalls_bind (Asking.recalls_of_fixed fun _ => rfl) fun a =>
    Asking.recalls_bind (Asking.recalls_of_fixed fun b => ?_) fun tree =>
      Asking.recalls_bind (recalls_askTreeLength t) fun _ =>
        Asking.recalls_bind (recalls_askTreeDepth t) fun _ => Asking.recalls_of_fixed fun _ => rfl
  cases a.toTree? t <;> rfl

end Trees

end Arena
end FormulaEvolution
