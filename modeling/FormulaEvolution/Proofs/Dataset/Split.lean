/-
# What a split deals out

A split shuffles the indices of the rows and cuts them in two.  Exchanging two members makes a
permutation of a list (`exchange_perm`), so each step of the shuffle keeps its members, whatever is drawn,
and so does the whole of it (`returns_shuffle`).  What permuted indices pick is a permutation of the pairs
(`pick_perm`): no row is lost, doubled or parted from its target.

The first part has as many rows as the fraction asks for, rounded, but neither none nor all
(`cutSize_rounded`).  The fraction of a size that is a double is a finite one, so there is a whole number to
round it to (`Number.isFinite_share`).
-/
import FormulaEvolution.Dataset.Basic
import FormulaEvolution.Proofs.Number.Nearest
import FormulaEvolution.Proofs.Random.Outcome
import FormulaEvolution.Random.Twister

namespace FormulaEvolution
namespace Dataset

/-! ## 1. Orders drawn at random -/

section Shuffle

variable {σ α : Type}

/-- **Exchanging two members permutes a list.** -/
theorem exchange_perm (xs : List α) (i j : Nat) : (exchange xs i j).Perm xs := by
  unfold exchange
  split
  · next x y hx hy =>
    obtain ⟨hi, rfl⟩ := List.getElem?_eq_some_iff.mp hx
    obtain ⟨hj, rfl⟩ := List.getElem?_eq_some_iff.mp hy
    exact List.set_set_perm hi hj
  · exact .refl xs

variable [RandomSource σ]

theorem returns_shuffleDown : ∀ (i : Nat) (xs : List α),
    (shuffleDown i xs : Draws σ (List α)).Returns (·.Perm xs)
  | 0, xs => Draws.returns_pure (.refl xs)
  | i + 1, xs =>
    Draws.returns_bind (Draws.returns_below (i + 2) (by omega)) fun j _ =>
      (returns_shuffleDown i (exchange xs (i + 1) j.val)).mono fun _ hperm =>
        hperm.trans (exchange_perm xs (i + 1) j.val)

/-- **A shuffle returns a permutation, whatever is drawn.** -/
theorem returns_shuffle (xs : List α) : (shuffle xs : Draws σ (List α)).Returns (·.Perm xs) :=
  returns_shuffleDown _ xs

end Shuffle

/-! ## 2. What is picked -/

variable {d : Dataset} {indices : List Nat}

theorem pairs_length (d : Dataset) : d.pairs.length = d.size := by
  rw [pairs, List.length_zip, d.count, Nat.min_self, size]

/-- Looking up all indices in order gives the list. -/
theorem filterMap_range {α : Type} (xs : List α) :
    (List.range xs.length).filterMap (xs[·]?) = xs := by
  have hsome : (List.range xs.length).map (xs[·]?) = xs.map some :=
    List.ext_getElem? fun i => by grind
  calc (List.range xs.length).filterMap (xs[·]?)
      = ((List.range xs.length).map (xs[·]?)).filterMap id := by rw [List.filterMap_map]; rfl
    _ = (xs.map some).filterMap id := by rw [hsome]
    _ = xs := by rw [List.filterMap_map]; exact List.filterMap_some

/-- **Permuted indices pick the pairs, permuted.** -/
theorem pick_perm (h : indices.Perm (List.range d.size)) : (d.pick indices).Perm d.pairs := by
  refine (h.filterMap _).trans (.of_eq ?_)
  rw [← pairs_length, filterMap_range]

theorem pick_length (h : ∀ i ∈ indices, i < d.size) : (d.pick indices).length = indices.length := by
  induction indices with
  | nil => rfl
  | cons i indices ih =>
    have hi : i < d.pairs.length := pairs_length d ▸ h i List.mem_cons_self
    rw [pick, List.filterMap_cons_some (List.getElem?_eq_getElem hi), List.length_cons, List.length_cons]
    exact congrArg (· + 1) (ih fun j hj => h j (List.mem_cons_of_mem i hj))

/-- The pairs of a selection are those that are picked. -/
theorem select_pairs (d : Dataset) (indices : List Nat) : (d.select indices).pairs = d.pick indices := by
  rw [pairs, select, List.zip_map']
  simp

theorem select_size (h : ∀ i ∈ indices, i < d.size) : (d.select indices).size = indices.length := by
  rw [← pairs_length, select_pairs, pick_length h]

/-! ## 3. Splits -/

/-- The size of the first part: the fraction rounded, within bounds. -/
theorem cutSize_rounded {n : Nat} (h : 2 ≤ n) (fraction : Float) : (cutSize n fraction : Int) =
    max 1 (min (Number.nearest (n.toFloat * fraction)) ((n : Int) - 1)) := by
  unfold cutSize
  omega

/-- **A split deals out all rows with their targets.**  Whatever is drawn, it returns two datasets with the names
of the one that is split.  The first one has as many rows as the fraction asks for, rounded, but neither
none nor all; both together have its rows, each with its own target. -/
theorem split_deals {σ : Type} [RandomSource σ] {d : Dataset} {fraction : Float} (hrows : 2 ≤ d.size)
    (hlow : 0.0 < fraction) (hhigh : fraction < 1.0) :
    (d.split fraction : Draws σ (Dataset × Dataset)).Returns fun parts =>
      (∃ k, (d.size < Number.overflowBound → Number.RoundsTo (d.size.toFloat * fraction) k) ∧
        (parts.1.size : Int) = max 1 (min k ((d.size : Int) - 1))) ∧
      0 < parts.1.size ∧ 0 < parts.2.size ∧ parts.1.size + parts.2.size = d.size ∧
      (parts.1.pairs ++ parts.2.pairs).Perm d.pairs ∧
      parts.1.names = d.names ∧ parts.2.names = d.names := by
  have hwithin : ¬(!(0.0 < fraction && fraction < 1.0)) = true := by simp [hlow, hhigh]
  rw [split, if_neg hwithin, if_neg (by omega)]
  refine Draws.returns_bind (returns_shuffle _) fun indices hperm => Draws.returns_pure ?_
  obtain ⟨hone, hrest⟩ := cutSize_bounds hrows fraction
  have hlength : indices.length = d.size := by rw [hperm.length_eq, List.length_range]
  have hbelow : ∀ i ∈ indices, i < d.size := fun i hi => List.mem_range.mp (hperm.mem_iff.mp hi)
  have hfirst : (d.select (indices.take (cutSize d.size fraction))).size = cutSize d.size fraction := by
    rw [select_size fun i hi => hbelow i (List.mem_of_mem_take hi), List.length_take]
    omega
  have hsecond : (d.select (indices.drop (cutSize d.size fraction))).size =
      d.size - cutSize d.size fraction := by
    rw [select_size fun i hi => hbelow i (List.mem_of_mem_drop hi), List.length_drop, hlength]
  refine ⟨⟨Number.nearest (d.size.toFloat * fraction), fun hlt => ?_, ?_⟩, ?_, ?_, ?_, ?_, rfl, rfl⟩
  · exact Number.roundsTo_nearest
      (Number.isFinite_share hlt (Number.le_of_less hlow) (Number.le_of_less hhigh))
  · exact (congrArg Nat.cast hfirst).trans (cutSize_rounded hrows fraction)
  · exact hone.trans_eq hfirst.symm
  · exact (by omega : 0 < d.size - cutSize d.size fraction).trans_eq hsecond.symm
  · exact (congrArg₂ (· + ·) hfirst hsecond).trans (by omega)
  · dsimp only
    rw [select_pairs, select_pairs, pick, pick, ← List.filterMap_append, List.take_append_drop]
    exact pick_perm hperm

/-- Four rows, to be dealt out in halves. -/
def quartet : Dataset where
  names := ["quarter"]
  rows := [[1.0], [2.0], [3.0], [4.0]]
  targets := [10.0, 20.0, 30.0, 40.0]
  width := by simp
  count := rfl
  distinct := by simp

/-- A generator deals the four rows out, two to each part. -/
theorem split_deals_quartet : ∃ parts s,
    (quartet.split 0.5 : Draws Twister (Dataset × Dataset)).runFrom (Twister.ofSeed 42) = (.ok parts, s) ∧
      parts.1.size = 2 ∧ parts.2.size = 2 ∧ (parts.1.pairs ++ parts.2.pairs).Perm quartet.pairs := by
  obtain ⟨parts, s, hrun, ⟨k, hrounds, hfirst⟩, -, -, hsize, hperm, -⟩ := @split_deals Twister _ quartet 0.5
    (by decide) (by decide) (by decide) (Twister.ofSeed 42)
  have hquartet : quartet.size = 4 := rfl
  have hfew : quartet.size < Number.overflowBound := by decide +kernel
  have hhalf : Number.isFinite (quartet.size.toFloat * 0.5) = true ∧
      Number.nearest (quartet.size.toFloat * 0.5) = 2 := by decide +kernel
  have hk : k = 2 := hhalf.2 ▸ (hrounds hfew).unique (Number.roundsTo_nearest hhalf.1)
  refine ⟨parts, s, hrun, ?_, ?_, hperm⟩ <;> omega

end Dataset
end FormulaEvolution
