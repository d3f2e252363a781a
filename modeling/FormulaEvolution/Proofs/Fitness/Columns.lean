/-
# All rows at once

With variables bound to columns, a tree has the column of the values that it has on the single rows,
or fails if it fails on one of them (`Tree.value_rowByRow`).

The relation between both is `RowByRow`: an outcome for all rows is good and falls into the outcomes
of the single rows, or it is a failure and some row fails, though perhaps in another way.  Values
are numbers or columns with an entry for each row (`Value.Spans`), and operations on them work on the
rows that they form (`Value.liftM_rowByRow`).
-/
import FormulaEvolution.Proofs.Code.Translation
import FormulaEvolution.Proofs.Sequence

namespace FormulaEvolution

/-! ## 1. Lists side by side -/

section Lists

variable {α β γ δ ε : Type}

theorem forall₂_zipWith {R : α → β → Prop} {S : α → γ → Prop} {T : α → δ → Prop} {f : β → γ → δ}
    (hT : ∀ a b c, R a b → S a c → T a (f b c)) : ∀ {as : List α} {bs : List β} {cs : List γ},
      List.Forall₂ R as bs → List.Forall₂ S as cs → List.Forall₂ T as (List.zipWith f bs cs)
  | _, _, _, .nil, .nil => .nil
  | _, _, _, .cons hR hRs, .cons hS hSs => .cons (hT _ _ _ hR hS) (forall₂_zipWith hT hRs hSs)

theorem forall₂_replicate {R : α → β → Prop} {b : β} {as : List α} (h : ∀ a ∈ as, R a b) :
    List.Forall₂ R as (List.replicate as.length b) := by
  induction as with
  | nil => exact .nil
  | cons a as ih =>
    exact .cons (h a List.mem_cons_self) (ih fun a' ha' => h a' (List.mem_cons_of_mem a ha'))

/-- Steps over a list fail only if one of them does. -/
theorem mapM_error {f : α → Except ε β} {as : List α} {failure : ε}
    (h : as.mapM f = .error failure) : ∃ a ∈ as, f a = .error failure := by
  induction as with
  | nil => cases h
  | cons a as ih =>
    rw [List.mapM_cons] at h
    cases ha : f a with
    | error failure' =>
      rw [ha] at h
      cases h
      exact ⟨a, List.mem_cons_self, ha⟩
    | ok b =>
      rw [ha] at h
      cases has : as.mapM f with
      | error failure' =>
        simp only [has, bind, Except.bind] at h
        cases h
        obtain ⟨a', ha', hfails⟩ := ih has
        exact ⟨a', List.mem_cons_of_mem a ha', hfails⟩
      | ok bs =>
        simp only [has, bind, Except.bind, pure, Except.pure] at h
        cases h

end Lists

/-! ## 2. Outcomes row by row -/

/-- An outcome for all rows and those of the single rows: a good value that falls into theirs, or a
failure where some row fails. -/
inductive RowByRow {ρ α β : Type} (rows : List ρ) (Good : α → Prop) (split : α → List β) :
    Except Failure α → (ρ → Except Failure β) → Prop
  | value {a : α} {single : ρ → Except Failure β} : Good a →
    List.Forall₂ (fun row b => single row = .ok b) rows (split a) →
      RowByRow rows Good split (.ok a) single
  | failure {single : ρ → Except Failure β} {failure failure' : Failure} {row : ρ} : row ∈ rows →
    single row = .error failure' → RowByRow rows Good split (.error failure) single

section Outcomes

variable {ρ β : Type} {rows : List ρ} {Good : List β → Prop} {result : Except Failure (List β)}
  {single : ρ → Except Failure β}

/-- If all single rows succeed, none fails. -/
theorem not_error_of_forall₂ {bs : List β}
    (h : List.Forall₂ (fun row b => single row = .ok b) rows bs) {row : ρ} (hrow : row ∈ rows)
    {failure : Failure} : single row ≠ .error failure := by
  obtain ⟨b, -, hb⟩ := exists_of_forall₂ h.flip hrow
  rw [hb]
  exact nofun

/-- The outcome for all rows is good exactly if it lists those of the single rows. -/
theorem RowByRow.ok_iff (h : RowByRow rows Good id result single) {bs : List β} :
    result = .ok bs ↔ List.Forall₂ (fun row b => single row = .ok b) rows bs := by
  cases h with
  | value _ hsplit =>
    constructor
    · rintro ⟨⟩
      exact hsplit
    · intro hbs
      exact (mapM_ok_iff.mpr hsplit).symm.trans (mapM_ok_iff.mpr hbs)
  | failure hrow hsingle =>
    constructor
    · nofun
    · intro hbs
      exact absurd hsingle (not_error_of_forall₂ hbs hrow)

/-- The outcome for all rows is a failure exactly if some row fails. -/
theorem RowByRow.error_iff (h : RowByRow rows Good id result single) :
    (∃ failure, result = .error failure) ↔
      ∃ row ∈ rows, ∃ failure, single row = .error failure := by
  cases h with
  | value _ hsplit =>
    constructor
    · rintro ⟨_, ⟨⟩⟩
    · rintro ⟨row, hrow, failure, hsingle⟩
      exact absurd hsingle (not_error_of_forall₂ hsplit hrow)
  | failure hrow hsingle => exact ⟨fun _ => ⟨_, hrow, _, hsingle⟩, fun _ => ⟨_, rfl⟩⟩

end Outcomes

namespace Value

/-- A number, or a column with so many entries. -/
def Spans (n : Nat) : Value → Prop
  | .number _ => True
  | .column xs => xs.length = n

theorem spread_column {n : Nat} {xs : List Float} (h : xs.length = n) :
    spread n (.column xs) = xs := by
  match xs, h with
  | [], _ => rfl
  | [x], h => rw [← h]; rfl
  | x :: y :: xs, _ => rfl

/-- As a column, a value has its entry in each row. -/
theorem Spans.toColumn {n : Nat} {v : Value} (h : v.Spans n) : v.toColumn n = v.spread n := by
  cases v with
  | number x => rfl
  | column xs => exact (spread_column h).symm

theorem Spans.length_spread {n : Nat} {v : Value} (h : v.Spans n) : (v.spread n).length = n := by
  cases v with
  | number x => exact List.length_replicate
  | column xs => rw [spread_column h, h]

/-- Values that span `n` rows form `n` rows. -/
theorem length_rows {n : Nat} {vs : List Value} (h : ∀ v ∈ vs, v.Spans n) :
    (rows n vs).length = n := by
  induction vs with
  | nil => exact List.length_replicate
  | cons v vs ih =>
    have hzip : rows n (v :: vs) = List.zipWith List.cons (v.spread n) (rows n vs) := rfl
    rw [hzip, List.length_zipWith, (h v List.mem_cons_self).length_spread,
      ih fun w hw => h w (List.mem_cons_of_mem v hw), Nat.min_self]

theorem length_of_mem_rows {n : Nat} {vs : List Value} : ∀ {xs : List Float},
    xs ∈ rows n vs → xs.length = vs.length := by
  induction vs with
  | nil =>
    intro xs hxs
    rw [List.eq_of_mem_replicate hxs]
    rfl
  | cons v vs ih =>
    intro xs hxs
    have hzip : xs ∈ List.zipWith List.cons (v.spread n) (rows n vs) := hxs
    obtain ⟨i, hi, rfl⟩ := List.getElem_of_mem hzip
    rw [List.getElem_zipWith, List.length_cons, List.length_cons, ih (List.getElem_mem _)]

theorem rows_numbers (n : Nat) (xs : List Float) :
    rows n (xs.map .number) = List.replicate n xs := by
  induction xs with
  | nil => rfl
  | cons x xs ih =>
    have hzip : rows n ((x :: xs).map .number) =
        List.zipWith List.cons (List.replicate n x) (rows n (xs.map .number)) := rfl
    rw [hzip, ih, List.zipWith_replicate, Nat.min_self]

/-- Values without a column among them are numbers. -/
theorem eq_numbers : ∀ {vs : List Value}, lengths vs = [] → ∃ xs : List Float, vs = xs.map .number
  | [], _ => ⟨[], rfl⟩
  | .number x :: vs, h => by
    have hvs : lengths vs = [] := by simpa [lengths, length?] using h
    obtain ⟨xs, rfl⟩ := eq_numbers hvs
    exact ⟨x :: xs, rfl⟩
  | .column xs :: vs, h => by simp [lengths, length?] at h

theorem lengths_numbers (xs : List Float) : lengths (xs.map .number) = [] := by
  simp [lengths, List.filterMap_map, Function.comp_def, length?]

theorem liftM_numbers (f : List Float → Except Failure Float) (xs : List Float) :
    liftM f (xs.map .number) = (f xs).map .number := by
  have h : (xs.map Value.number).flatMap (spread 1) = xs := by
    simp [List.flatMap_map, spread, List.replicate]
  simp only [liftM, lengths_numbers, h]

/-- Columns with an entry for each row have their rows in common. -/
theorem liftM_columns (f : List Float → Except Failure Float) {n : Nat} {vs : List Value}
    (hvs : ∀ v ∈ vs, v.Spans n) (hne : lengths vs ≠ []) :
    liftM f vs = ((rows n vs).mapM f).map .column := by
  have hall : ∀ l ∈ lengths vs, l = n := by
    intro l hl
    obtain ⟨v, hv, hlength⟩ := List.mem_filterMap.mp hl
    cases v with
    | number x => cases hlength
    | column xs =>
      cases hlength
      exact hvs _ hv
  have hcommon : commonLength (lengths vs) = n := by
    by_cases hn : n = 1
    · have hnone : (lengths vs).find? (· ≠ 1) = none := by
        rw [List.find?_eq_none]
        intro l hl
        simp [hall l hl, hn]
      rw [commonLength, hnone, hn]
      rfl
    · obtain ⟨l, ls, hls⟩ := List.exists_cons_of_ne_nil hne
      have hl : l = n := hall l (by rw [hls]; exact List.mem_cons_self)
      simp [commonLength, hls, hl, hn]
  have hagree : agree (lengths vs) = true := by
    simp only [agree, List.all_eq_true, hcommon]
    intro l hl
    simp [hall l hl]
  unfold liftM
  split
  · next hnil => exact absurd hnil hne
  · rw [if_pos hagree, hcommon]

/-- **An operation on values is the operation on the rows that they form.** -/
theorem liftM_rowByRow (f : List Float → Except Failure Float) {n : Nat} (hn : 0 < n)
    {vs : List Value} (hvs : ∀ v ∈ vs, v.Spans n) :
    RowByRow (rows n vs) (Spans n) (spread n) (liftM f vs) f := by
  by_cases hlengths : lengths vs = []
  · obtain ⟨xs, rfl⟩ := eq_numbers hlengths
    rw [liftM_numbers, rows_numbers]
    cases hf : f xs with
    | error failure => exact .failure (List.mem_replicate.mpr ⟨Nat.ne_of_gt hn, rfl⟩) hf
    | ok y =>
      refine .value trivial ?_
      have hall : ∀ zs ∈ List.replicate n xs, f zs = .ok y := fun zs hzs => by
        rw [List.eq_of_mem_replicate hzs, hf]
      have hrows := forall₂_replicate (R := fun zs y => f zs = .ok y) hall
      rwa [List.length_replicate] at hrows
  · rw [liftM_columns f hvs hlengths]
    cases hm : (rows n vs).mapM f with
    | error failure =>
      obtain ⟨xs, hxs, hf⟩ := mapM_error hm
      exact .failure hxs hf
    | ok ys =>
      have hall := mapM_ok_iff.mp hm
      have hlength : ys.length = n := by rw [← hall.length_eq, length_rows hvs]
      refine .value hlength ?_
      rwa [spread_column hlength]

/-- An operation that never fails is one that may. -/
theorem lift_eq_liftM (f : List Float → Float) (vs : List Value) :
    lift f vs = liftM (fun xs => .ok (f xs)) vs := by
  have hmap : ∀ xss : List (List Float),
      xss.mapM (fun xs => (.ok (f xs) : Except Failure Float)) = .ok (xss.map f) :=
    fun xss => mapM_map fun xs _ => rfl
  unfold lift liftM
  split
  · rfl
  · rw [hmap]
    rfl

/-- What an operation does depends on rows with an entry for each value only. -/
theorem liftM_congr {f g : List Float → Except Failure Float} {vs : List Value}
    (h : ∀ xs : List Float, xs.length = vs.length → f xs = g xs) : liftM f vs = liftM g vs := by
  by_cases hlengths : lengths vs = []
  · obtain ⟨xs, rfl⟩ := eq_numbers hlengths
    rw [liftM_numbers, liftM_numbers, h xs (List.length_map _).symm]
  · unfold liftM
    split
    · next hnil => exact absurd hnil hlengths
    · rw [mapM_congr fun xs hxs => h xs (length_of_mem_rows hxs)]

end Value

namespace Tree

/-! ## 3. Trees -/

/-- What a symbol does to the numbers of one row. -/
def rowOf (s : Symbol) (xs : List Float) : Except Failure Float :=
  s.evaluate (xs.map .number) >>= Value.toNumber

/-- A node with children does to values what its symbol does to the numbers of each row. -/
theorem combine_eq_liftM {b : Bindings} {s : Symbol} {cs : List Tree} {vs : List Value}
    (h : Ready Symbol.Scalar (.node s cs)) (hcount : vs.length = cs.length) :
    combine b (.node s cs) vs = Value.liftM (rowOf s) vs := by
  have haccepts : s.accepts vs.length = true := by
    rw [hcount]
    exact h.accepts
  -- A symbol with a kernel works on columns as it does on numbers.
  have hkernel : ∀ k : Kernel, s.operation = some k.runOnChildren → k.Takes vs.length →
      s.isCompilable = true → combine b (.node s cs) vs = Value.liftM (rowOf s) vs := by
    intro k hop htakes hcompilable
    have hwhole : combine b (.node s cs) vs = Value.lift k.apply vs := by
      simp only [combine, isWhole, symbol, hcompilable, Bool.or_true, if_true, nodeValue,
        Symbol.isFunctional, hop, Option.isSome_some, Symbol.evaluate,
        Kernel.runOnChildren_eq htakes, Kernel.run_eq_lift htakes]
    rw [hwhole, Value.lift_eq_liftM]
    refine Value.liftM_congr fun xs hxs => ?_
    rw [rowOf, Symbol.evaluate_kernel hop (by rwa [hxs])]
    rfl
  rcases h.regular.node_cases with hs | ⟨hfunctional, hnot, hscalar⟩
  · rcases (Symbol.standard_cases hs).2 with ⟨p, hp⟩ | ⟨a, ha⟩
    · exact hkernel p.kernel hp.1 (hp.takes haccepts) (standardSymbols_complete hs).2
    · exact hkernel a.kernel ha.1 (ha.takes haccepts).2 (standardSymbols_complete hs).2
  · -- Any other operation is applied to one row after the other.
    rw [combine_eq_byRow (t := .node s cs) hnot hcount, nodeValueByRow]
    have hrow : rowValue b (.node s cs) = rowOf s := by
      funext xs
      simp [rowValue, nodeValue, hfunctional, rowOf]
    split
    · next hlengths =>
      obtain ⟨xs, rfl⟩ := Value.eq_numbers hlengths
      rw [Value.liftM_numbers, rowOf]
      simp only [nodeValue, hfunctional, if_true]
      rw [List.length_map] at haccepts
      rcases hscalar xs haccepts with ⟨y, hy⟩ | ⟨failure, hy⟩
      · rw [hy]
        rfl
      · rw [hy]
        rfl
    · rw [hrow]

/-- Variables are bound to columns, and for each row to the entries of that row. -/
def BindsRows {ρ : Type} (rows : List ρ) (whole : Bindings) (single : ρ → Bindings) : Prop :=
  ∀ name, (whole.value? name = none ∧ ∀ row ∈ rows, (single row).value? name = none) ∨
    ∃ entry : ρ → Float, whole.value? name = some (.column (rows.map entry)) ∧
      ∀ row ∈ rows, (single row).value? name = some (.number (entry row))

section Rows

variable {ρ : Type} {rows : List ρ} {whole : Bindings} {single : ρ → Bindings}

/-- What the values of one tree are to be, row by row. -/
abbrev ValueRowByRow (rows : List ρ) (whole : Bindings) (single : ρ → Bindings) (t : Tree) : Prop :=
  RowByRow rows (Value.Spans rows.length) (fun v => (v.spread rows.length).map Value.number)
    (t.value whole) fun row => t.value (single row)

/-- What the values of some trees are to be: in each row they are numbers. -/
abbrev ValuesRowByRow (rows : List ρ) (whole : Bindings) (single : ρ → Bindings) (cs : List Tree) :
    Prop :=
  RowByRow rows (fun vs => ∀ v ∈ vs, Value.Spans rows.length v)
    (fun vs => (Value.rows rows.length vs).map fun xs => xs.map Value.number)
    (values whole cs) fun row => values (single row) cs

theorem constant_rowByRow (s : Symbol) (v : Float) :
    ValueRowByRow rows whole single (.constant s v) := by
  have hvalue : ∀ b : Bindings, (Tree.constant s v).value b = .ok (.number v) := fun _ => rfl
  rw [ValueRowByRow, hvalue]
  refine .value trivial ?_
  rw [Value.spread, List.map_replicate]
  exact forall₂_replicate fun row _ => hvalue (single row)

/-- A variable is bound for all rows or for none. -/
theorem variable_rowByRow (hrows : rows ≠ []) (hbinds : BindsRows rows whole single) (s : Symbol) :
    ValueRowByRow rows whole single (.variable s) := by
  unfold ValueRowByRow
  rcases hbinds s.name with ⟨hwhole, hsingle⟩ | ⟨entry, hwhole, hsingle⟩
  · obtain ⟨row, others, rfl⟩ := List.exists_cons_of_ne_nil hrows
    rw [value_unbound hwhole]
    exact .failure List.mem_cons_self (value_unbound (hsingle row List.mem_cons_self))
  · rw [value_bound hwhole]
    have hlength : (rows.map entry).length = rows.length := List.length_map entry
    refine .value hlength ?_
    rw [Value.spread_column hlength, List.forall₂_map_right_iff, List.forall₂_map_right_iff,
      List.forall₂_same]
    exact fun row hrow => value_bound (hsingle row hrow)

/-- A node has its value row by row if its children have theirs. -/
theorem node_rowByRow (hrows : rows ≠ []) {s : Symbol} {cs : List Tree}
    (hready : Ready Symbol.Scalar (.node s cs)) (hall : ValuesRowByRow rows whole single cs) :
    ValueRowByRow rows whole single (.node s cs) := by
  have hvalue : ∀ {b : Bindings} {vs : List Value}, values b cs = .ok vs →
      (Tree.node s cs).value b = Value.liftM (rowOf s) vs := by
    intro b vs hvs
    rw [value_eq, children, hvs]
    exact combine_eq_liftM hready (length_values hvs)
  have hfails : ∀ {b : Bindings} {failure : Failure}, values b cs = .error failure →
      (Tree.node s cs).value b = .error failure := by
    intro b failure hvs
    rw [value_eq, children, hvs]
    rfl
  unfold ValuesRowByRow at hall
  unfold ValueRowByRow
  generalize hwhole : values whole cs = outcome at hall
  cases hall with
  | failure hrow hsingle =>
    rw [hfails hwhole]
    exact .failure hrow (hfails hsingle)
  | @value vs _ hspans hsplit =>
    have hrow := List.forall₂_map_right_iff.mp hsplit
    have hlift := Value.liftM_rowByRow (rowOf s) (List.length_pos_iff.mpr hrows) hspans
    rw [hvalue hwhole]
    generalize Value.liftM (rowOf s) vs = result at hlift
    cases hlift with
    | @failure _ _ failure' xs hxs hf =>
      obtain ⟨row, hmem, hsingle⟩ := exists_of_forall₂ hrow hxs
      have hfails : (Tree.node s cs).value (single row) = .error failure' := by
        rw [hvalue hsingle, Value.liftM_numbers, hf]
        rfl
      exact .failure hmem hfails
    | value hv hys =>
      refine .value hv (List.forall₂_map_right_iff.mpr (forall₂_trans ?_ hrow hys))
      intro row xs y hsingle hy
      rw [hvalue hsingle, Value.liftM_numbers, hy]
      rfl

/-- One more tree, in front of others. -/
theorem cons_rowByRow {c : Tree} {cs : List Tree} (hc : ValueRowByRow rows whole single c)
    (hcs : ValuesRowByRow rows whole single cs) : ValuesRowByRow rows whole single (c :: cs) := by
  unfold ValueRowByRow at hc
  unfold ValuesRowByRow at hcs ⊢
  rw [values]
  generalize hwhole : value whole c = outcome at hc
  cases hc with
  | @failure _ _ failure' row hrow hsingle =>
    have hfails : values (single row) (c :: cs) = .error failure' := by
      have hc : value (single row) c = .error failure' := hsingle
      rw [values, hc]
      rfl
    exact .failure hrow hfails
  | @value v _ hspans hsplit =>
    generalize hrest : values whole cs = outcome' at hcs
    cases hcs with
    | @failure _ _ failure' row hrow hsingle =>
      -- The first tree may fail on the row as well, and then its failure counts.
      obtain ⟨failure'', hfails⟩ : ∃ failure'', values (single row) (c :: cs) = .error failure'' := by
        rw [values]
        cases value (single row) c with
        | error failure'' => exact ⟨failure'', rfl⟩
        | ok w =>
          have hcs : values (single row) cs = .error failure' := hsingle
          rw [hcs]
          exact ⟨failure', rfl⟩
      exact .failure hrow hfails
    | @value vs _ hspans' hsplit' =>
      refine .value (a := v :: vs) (List.forall_mem_cons.mpr ⟨hspans, hspans'⟩) ?_
      have hzip : Value.rows rows.length (v :: vs) =
          List.zipWith List.cons (v.spread rows.length) (Value.rows rows.length vs) := rfl
      rw [hzip, List.forall₂_map_right_iff]
      refine forall₂_zipWith ?_ (List.forall₂_map_right_iff.mp hsplit)
        (List.forall₂_map_right_iff.mp hsplit')
      intro row y xs hy hxs
      have hc : value (single row) c = .ok (.number y) := hy
      have hcs : values (single row) cs = .ok (xs.map .number) := hxs
      rw [values, hc, hcs]
      rfl

mutual

/-- **A tree has the column of the values that it has on the single rows, and fails if it fails on
one of them.** -/
theorem value_rowByRow (hrows : rows ≠ []) (hbinds : BindsRows rows whole single) :
    ∀ {t : Tree}, (∀ u ∈ t.preorder, u.Ready Symbol.Scalar) → ValueRowByRow rows whole single t
  | .constant s v, _ => constant_rowByRow s v
  | .variable s, _ => variable_rowByRow hrows hbinds s
  | .node s cs, h => by
    have hall := values_rowByRow hrows hbinds fun c hc u hu =>
      h u (by rw [preorder]; exact List.mem_cons_of_mem _ (mem_preorderAll.mpr ⟨c, hc, hu⟩))
    exact node_rowByRow hrows (h (.node s cs) (by simp [preorder])) hall

theorem values_rowByRow (hrows : rows ≠ []) (hbinds : BindsRows rows whole single) :
    ∀ {cs : List Tree}, (∀ c ∈ cs, ∀ u ∈ c.preorder, u.Ready Symbol.Scalar) →
      ValuesRowByRow rows whole single cs
  | [], _ => by
    refine .value (a := []) (by simp) ?_
    rw [Value.rows, List.foldr_nil, List.map_replicate]
    exact forall₂_replicate fun row _ => rfl
  | c :: cs, h => by
    have hc := value_rowByRow hrows hbinds (h c List.mem_cons_self)
    have hcs := values_rowByRow hrows hbinds fun e he => h e (List.mem_cons_of_mem c he)
    exact cons_rowByRow hc hcs

end

end Rows

end Tree
end FormulaEvolution
