/-
# Lenient predictions

A lenient evaluator always predicts: for each row the value of the tree there, if there is one and it
is finite, and zero otherwise (`Evaluator.predict_lenient`).

Chunks do not depend on each other, nor on what the pool holds (`Evaluator.predictChunks_eq_mapM`).  One
is evaluated at once, or row by row if that fails (`Evaluator.lenientOutcome`).  The first way gives the
values of the single rows (`Evaluator.predictStrict_rowByRow`).  The second one binds one row after the
other in one dictionary; each row binds all inputs again, so what an earlier row has left is not seen
(`Evaluator.predictRows_eq`).  All failures on either way are ones that are forgiven, since those of
the operations are (`Tree.value_forgivable`).
-/
import FormulaEvolution.Proofs.Fitness.Totality

namespace FormulaEvolution

/-! ## 1. What earlier rows leave behind -/

namespace Dictionary

variable {β : Type} {d d' : Dictionary β}

/-- **Binding names anew hides what they were bound to before.** -/
theorem value?_bindAll_congr : ∀ {names : List String} {values : List β} {d d' : Dictionary β},
    values.length = names.length →
      (∀ name, name ∉ names → d.value? name = d'.value? name) →
        ∀ name, (d.bindAll names values).value? name = (d'.bindAll names values).value? name
  | [], _, _, _, _, h, name => h name List.not_mem_nil
  | other :: names, [], _, _, hlength, _, _ => by simp at hlength
  | other :: names, value :: values, d, d', hlength, h, name => by
    rw [bindAll_cons, bindAll_cons]
    refine value?_bindAll_congr (by simpa using hlength) (fun name' hname' => ?_) name
    rw [value?_bind, value?_bind]
    by_cases hother : other = name'
    · rw [if_pos hother, if_pos hother]
    · rw [if_neg hother, if_neg hother]
      refine h name' fun hmem => ?_
      rcases List.mem_cons.mp hmem with rfl | hmem
      · exact hother rfl
      · exact hname' hmem

/-- Names that are not bound keep what they were bound to. -/
theorem value?_bindAll_of_not_mem {name : String} : ∀ {names : List String} {values : List β}
    {d : Dictionary β}, name ∉ names → (d.bindAll names values).value? name = d.value? name
  | [], _, _, _ => rfl
  | _ :: _, [], _, _ => rfl
  | other :: names, value :: values, d, h => by
    have hother : other ≠ name := by
      rintro rfl
      exact h List.mem_cons_self
    rw [bindAll_cons, value?_bindAll_of_not_mem fun hmem => h (List.mem_cons_of_mem other hmem),
      value?_bind, if_neg hother]

end Dictionary

namespace Tree

/-- A node sees no more of bindings than what names are bound to. -/
theorem combine_congr {b b' : Bindings} (h : ∀ name, b.value? name = b'.value? name) (t : Tree)
    (args : List Value) : combine b t args = combine b' t args := by
  have hnode : ∀ args, nodeValue b t args = nodeValue b' t args := by
    intro args
    cases t with
    | constant s v => rfl
    | «variable» s => simp only [nodeValue, h]
    | node s cs => rfl
  have hrow : rowValue b t = rowValue b' t := by
    funext xs
    simp only [rowValue, hnode]
  simp only [combine, nodeValueByRow, hnode, hrow]

mutual

/-- **A tree sees no more of bindings than what names are bound to.** -/
theorem value_congr {b b' : Bindings} (h : ∀ name, b.value? name = b'.value? name) :
    ∀ t : Tree, t.value b = t.value b'
  | .constant s v => combine_congr h (.constant s v) []
  | .variable s => combine_congr h (.variable s) []
  | .node s cs => by
    simp only [value, values_congr h cs, combine_congr h (.node s cs)]

theorem values_congr {b b' : Bindings} (h : ∀ name, b.value? name = b'.value? name) :
    ∀ cs : List Tree, values b cs = values b' cs
  | [] => rfl
  | c :: cs => by simp only [values, value_congr h c, values_congr h cs]

end

end Tree

/-! ## 2. Failures that are forgiven -/

/-- If a result is a failure, it is one that is forgiven. -/
def Forgivable {α : Type} (result : Except Failure α) : Prop :=
  ∀ failure, result = .error failure → failure.isLenient = true

theorem forgivable_ok {α : Type} (a : α) : Forgivable (.ok a) := nofun

theorem forgivable_bind {α β : Type} {first : Except Failure α} {next : α → Except Failure β}
    (hfirst : Forgivable first) (hnext : ∀ a, first = .ok a → Forgivable (next a)) :
    Forgivable (first >>= next) := by
  cases first with
  | error failure =>
    rintro _ ⟨⟩
    exact hfirst failure rfl
  | ok a => exact hnext a rfl

theorem forgivable_map {α β : Type} {result : Except Failure α} {f : α → β}
    (h : Forgivable result) : Forgivable (result.map f) := by
  cases result with
  | error failure =>
    rintro _ ⟨⟩
    exact h failure rfl
  | ok a => exact nofun

/-- A value that is no number is of the wrong type, which is forgiven. -/
theorem Value.forgivable_toNumber (v : Value) : Forgivable v.toNumber := by
  match v with
  | .number x => exact nofun
  | .column [] => rintro _ ⟨⟩; rfl
  | .column [x] => exact nofun
  | .column (x :: y :: xs) => rintro _ ⟨⟩; rfl

/-- The operation takes numbers, as many as the symbol accepts, to a number or to a failure that is
forgiven. -/
def Symbol.Lenient (s : Symbol) : Prop := ∀ xs : List Float, s.accepts xs.length = true →
  (∃ y, s.evaluate (xs.map .number) = .ok (.number y)) ∨
    ∃ failure, s.evaluate (xs.map .number) = .error failure ∧ failure.isLenient = true

theorem Symbol.Lenient.scalar {s : Symbol} (h : s.Lenient) : s.Scalar := by
  intro xs hxs
  rcases h xs hxs with hvalue | ⟨failure, hfails, -⟩
  · exact .inl hvalue
  · exact .inr ⟨failure, hfails⟩

theorem Symbol.Total.lenient {s : Symbol} (h : s.Total) : s.Lenient := fun xs hxs => .inl (h xs hxs)

namespace Tree

theorem Ready.mono {Q R : Symbol → Prop} {t : Tree} (h : t.Ready Q) (hQR : ∀ s, Q s → R s) :
    t.Ready R := ⟨h.sorted, h.accepts, h.usual.mono hQR⟩

theorem Ready.lenient {s : Symbol} {cs : List Tree} (h : Ready Symbol.Lenient (.node s cs)) :
    s.Lenient := by
  rcases h.regular.node_cases with hs | ⟨-, -, hlenient⟩
  · exact (Symbol.total_of_standard hs).lenient
  · exact hlenient

/-- On the numbers of one row, an operation fails in a way that is forgiven. -/
theorem forgivable_rowOf {s : Symbol} (h : s.Lenient) {xs : List Float}
    (haccepts : s.accepts xs.length = true) : Forgivable (rowOf s xs) := by
  refine forgivable_bind ?_ fun v _ => v.forgivable_toNumber
  rcases h xs haccepts with ⟨y, hy⟩ | ⟨failure, hfails, hlenient⟩
  · rw [hy]
    exact forgivable_ok _
  · rw [hfails]
    rintro _ ⟨⟩
    exact hlenient

end Tree

/-- An operation on values fails as it does on the rows that they form, or because they form none,
which is forgiven. -/
theorem Value.forgivable_liftM {f : List Float → Except Failure Float} {vs : List Value}
    (h : ∀ xs : List Float, xs.length = vs.length → Forgivable (f xs)) :
    Forgivable (Value.liftM f vs) := by
  by_cases hlengths : Value.lengths vs = []
  · obtain ⟨xs, rfl⟩ := Value.eq_numbers hlengths
    rw [Value.liftM_numbers]
    exact forgivable_map (h xs (List.length_map _).symm)
  · unfold Value.liftM
    split
    · next hnil => exact absurd hnil hlengths
    · split
      · refine forgivable_map fun failure hfails => ?_
        obtain ⟨xs, hxs, hf⟩ := mapM_error hfails
        exact h xs (Value.length_of_mem_rows hxs) failure hf
      · rintro _ ⟨⟩
        rfl

namespace Tree

mutual

/-- **A tree fails in ways that are forgiven**, whatever its variables are bound to. -/
theorem value_forgivable (b : Bindings) : ∀ {t : Tree},
    (∀ u ∈ t.preorder, u.Ready Symbol.Lenient) → Forgivable (t.value b)
  | .constant s v, _ => by
    have hvalue : (Tree.constant s v).value b = .ok (.number v) := rfl
    rw [hvalue]
    exact forgivable_ok _
  | .variable s, _ => by
    cases hlookup : b.value? s.name with
    | none =>
      rw [value_unbound hlookup]
      rintro _ ⟨⟩
      rfl
    | some v =>
      rw [value_bound hlookup]
      exact forgivable_ok _
  | .node s cs, h => by
    have hready := h (.node s cs) (by simp [preorder])
    have hscalar := hready.mono fun _ => Symbol.Lenient.scalar
    rw [value_eq, children]
    refine forgivable_bind (values_forgivable b fun c hc u hu =>
      h u (by rw [preorder]; exact List.mem_cons_of_mem _ (mem_preorderAll.mpr ⟨c, hc, hu⟩))) ?_
    intro vs hvs
    rw [combine_eq_liftM hscalar (length_values hvs)]
    refine Value.forgivable_liftM fun xs hxs => forgivable_rowOf hready.lenient ?_
    rw [hxs, length_values hvs]
    exact hready.accepts

theorem values_forgivable (b : Bindings) : ∀ {cs : List Tree},
    (∀ c ∈ cs, ∀ u ∈ c.preorder, u.Ready Symbol.Lenient) → Forgivable (values b cs)
  | [], _ => forgivable_ok _
  | c :: cs, h => by
    rw [values]
    refine forgivable_bind (value_forgivable b (h c List.mem_cons_self)) fun v _ => ?_
    exact forgivable_bind (values_forgivable b fun e he => h e (List.mem_cons_of_mem c he))
      fun vs _ => forgivable_ok _

end

end Tree

/-- Explaining what keys are looked up in vain keeps failures forgiven. -/
theorem SameOutcome.forgivable {α : Type} {result result' : Except Failure α}
    (h : SameOutcome result result') (hresult : Forgivable result') :
    Forgivable (result.mapError Expression.explain) := by
  cases h with
  | same =>
    cases result with
    | ok a => exact forgivable_ok a
    | error failure =>
      rintro _ ⟨⟩
      cases failure with
      | absentKey key => rfl
      | absentValue shown => rfl
      | _ => exact hresult _ rfl
  | missing name =>
    rintro _ ⟨⟩
    rfl

namespace Expression.RunsAs

variable {x : Expression} {t : Tree} {b : Bindings}

/-- **An expression that runs as a tree fails in ways that are forgiven if the tree does**, on one row
and on many. -/
theorem forgivable (hx : x.RunsAs t) (ht : Forgivable (t.value b)) :
    Forgivable (x.evaluate b) ∧ ∀ count, Forgivable (x.evaluateColumns b count) := by
  have hboth : ∀ {result : Except Failure Value}, Forgivable result →
      Forgivable (result >>= Value.toNumber) ∧
        ∀ count, Forgivable (result >>= fun v => .ok (v.toColumn count)) := fun h =>
    ⟨forgivable_bind h fun v _ => v.forgivable_toNumber,
      fun _ => forgivable_bind h fun _ _ => forgivable_ok _⟩
  cases x with
  | interpreted u =>
    obtain rfl : u = some t := hx
    exact hboth ht
  | compiled source code nodes => exact hboth ((hx b).forgivable ht)

/-- An expression has the value of the tree where the tree has one, and fails where it fails. -/
theorem evaluate_cases (hx : x.RunsAs t) (b : Bindings) :
    x.evaluate b = FormulaEvolution.evaluate (some t) b ∨
      (∃ failure, x.evaluate b = .error failure) ∧
        ∃ failure, FormulaEvolution.evaluate (some t) b = .error failure := by
  have htree : FormulaEvolution.evaluate (some t) b = t.value b >>= Value.toNumber := rfl
  obtain ⟨result, hresult, -, hexplains⟩ := hx.outcome b
  rw [hresult, htree]
  generalize t.value b = tree at hexplains
  cases hexplains with
  | value v => exact .inl rfl
  | failure _ => exact .inr ⟨⟨_, rfl⟩, _, rfl⟩

end Expression.RunsAs

/-! ## 3. Lenient outcomes -/

/-- An outcome, or another one if it is a failure that is to be forgiven. -/
def orElse {α : Type} (first second : Except Failure α) : Except Failure α :=
  match first with
  | .ok a => .ok a
  | .error failure => if failure.isLenient then second else .error failure

theorem orElse_forgiven {α : Type} {failure : Failure} (h : failure.isLenient = true)
    (second : Except Failure α) : orElse (.error failure) second = second := by
  simp only [orElse, h, if_true]

theorem orElse_left {α : Type} {failure : Failure} (h : failure.isLenient = false)
    (second : Except Failure α) : orElse (.error failure) second = .error failure := by
  simp only [orElse, h, Bool.false_eq_true, if_false]

/-- What an outcome counts as once failures are forgiven. -/
def forgive : Except Failure Float → Float
  | .ok y => y
  | .error _ => 0.0

theorem Forgivable.orElse_zero {result : Except Failure Float} (h : Forgivable result) :
    orElse result (.ok 0.0) = .ok (forgive result) := by
  cases result with
  | ok y => rfl
  | error failure => rw [orElse_forgiven (h failure rfl), forgive]

namespace Evaluator

section Outcomes

variable {e : Evaluator} {x : Expression}

/-- The next row is evaluated with what is bound then, and counts as zero if it fails in a way that is
to be forgiven. -/
theorem predictRows_cons (row : List Float) (rows : List (List Float)) (b : Bindings) :
    (e.predictRows x (row :: rows) b).1 =
      orElse (x.evaluate (b.bindAll e.names (row.map .number))) (.ok 0.0) >>= fun y =>
        (e.predictRows x rows (b.bindAll e.names (row.map .number))).1.map (y :: ·) := by
  rw [predictRows]
  cases x.evaluate (b.bindAll e.names (row.map .number)) with
  | ok y => rfl
  | error failure =>
    cases hlenient : failure.isLenient with
    | true => simp only [orElse_forgiven hlenient, hlenient, if_true, bind, Except.bind]
    | false =>
      simp only [orElse_left hlenient, hlenient, Bool.false_eq_true, if_false]
      rfl

/-- The lenient predictions for some rows, whatever the pool holds: those for all rows at once, or those
for single rows if the former are a failure that is to be forgiven. -/
def lenientOutcome (e : Evaluator) (x : Expression) (rows : List (List Float)) :
    Except Failure (List Float) :=
  (orElse (x.evaluateColumns (Dictionary.bindAll [] e.names (e.columnsOf rows)) rows.length)
    (e.predictRows x rows []).1).map (·.map settle)

theorem predictLenient_outcome (rows : List (List Float)) (pool : ScratchPool Value) :
    (e.predictLenient x rows pool).1 = e.lenientOutcome x rows := by
  have hstrict := e.predictStrict_result x rows pool
  cases hoverall : e.predictStrict x rows pool with
  | mk strict pool' =>
    rw [hoverall] at hstrict
    simp only [predictLenient, hoverall]
    rw [lenientOutcome, ← hstrict]
    cases strict with
    | ok ys => rfl
    | error failure =>
      cases hlenient : failure.isLenient with
      | true => simp only [orElse_forgiven hlenient, hlenient, if_true, ScratchPool.within_result]
      | false =>
        simp only [orElse_left hlenient, hlenient, Bool.false_eq_true, if_false]
        rfl

/-- **Lenient predictions are those of the chunks in a row**, which do not depend on each other. -/
theorem predictChunks_eq_mapM (hlenient : e.settings.lenient = true) :
    ∀ (chunks : List (List (List Float))) (pool : ScratchPool Value),
      (e.predictChunks x chunks pool).1 = (chunks.mapM (e.lenientOutcome x)).map List.flatten
  | [], _ => rfl
  | chunk :: chunks, pool => by
    have hchunk : e.predictChunk x chunk = e.predictLenient x chunk := by
      simp only [predictChunk, hlenient, if_true]
    have hboth : (e.predictChunks x (chunk :: chunks) pool).1 =
        (do
          let ys ← (e.predictLenient x chunk pool).1
          let zs ← (e.predictChunks x chunks (e.predictLenient x chunk pool).2).1
          return ys ++ zs) := by
      rw [predictChunks, hchunk]
    rw [hboth, predictLenient_outcome, predictChunks_eq_mapM hlenient chunks, List.mapM_cons]
    cases e.lenientOutcome x chunk with
    | error failure => rfl
    | ok ys => cases chunks.mapM (e.lenientOutcome x) <;> rfl

end Outcomes

/-! ## 4. Rows and chunks -/

section Rows

variable {e : Evaluator} {x : Expression} {t : Tree}

/-- **Rows are predicted one by one as if each had a dictionary of its own.**  The dictionary may hold
what earlier rows have bound, which are inputs and nothing else. -/
theorem predictRows_eq (hx : x.RunsAs t) (ht : ∀ u ∈ t.preorder, u.Ready Symbol.Lenient) :
    ∀ {rows : List (List Float)} {b : Bindings}, (∀ row ∈ rows, row ∈ e.rows) →
      (∀ name, name ∉ e.names → b.value? name = none) →
        (e.predictRows x rows b).1 =
          .ok (rows.map fun row => forgive (evaluate (some t) (e.bindRow row)))
  | [], _, _, _ => rfl
  | row :: rows, b, hrows, hb => by
    let bound := b.bindAll e.names (row.map .number)
    have hwidth : (row.map Value.number).length = e.names.length := by
      rw [List.length_map, e.width row (hrows row List.mem_cons_self)]
    have hvalue : t.value bound = t.value (e.bindRow row) :=
      Tree.value_congr (Dictionary.value?_bindAll_congr hwidth hb) t
    have htree : evaluate (some t) bound = evaluate (some t) (e.bindRow row) := by
      simp only [evaluate, expectRoot, bind, Except.bind, hvalue]
    have hforgivable := (hx.forgivable (Tree.value_forgivable bound ht)).1
    have hsame : forgive (x.evaluate bound) = forgive (evaluate (some t) (e.bindRow row)) := by
      rw [← htree]
      rcases hx.evaluate_cases bound with hsame | ⟨⟨failure, hfails⟩, failure', hfails'⟩
      · rw [hsame]
      · rw [hfails, hfails', forgive, forgive]
    have hleft : ∀ name, name ∉ e.names → bound.value? name = none := fun name hname => by
      rw [Dictionary.value?_bindAll_of_not_mem hname, hb name hname]
    have hrest := predictRows_eq (b := bound) hx ht
      (fun row' hrow' => hrows row' (List.mem_cons_of_mem row hrow')) hleft
    rw [predictRows_cons, hforgivable.orElse_zero, hsame, hrest, List.map_cons]
    rfl

/-- What is predicted for a row. -/
def settled (e : Evaluator) (t : Tree) (row : List Float) : Float :=
  settle (forgive (evaluate (some t) (e.bindRow row)))

/-- **A chunk is predicted row by row, at once or not.** -/
theorem lenientOutcome_eq (hx : x.RunsAs t) (ht : ∀ u ∈ t.preorder, u.Ready Symbol.Lenient)
    {rows : List (List Float)} (hne : rows ≠ []) (hrows : ∀ row ∈ rows, row ∈ e.rows) :
    e.lenientOutcome x rows = .ok (rows.map (e.settled t)) := by
  have hscalar : ∀ u ∈ t.preorder, u.Ready Symbol.Scalar := fun u hu =>
    (ht u hu).mono fun _ => Symbol.Lenient.scalar
  have hstrict := predictStrict_rowByRow hx hscalar hne hrows .usual
  rw [predictStrict_result] at hstrict
  have hforgivable := (hx.forgivable
    (Tree.value_forgivable (Dictionary.bindAll [] e.names (e.columnsOf rows)) ht)).2 rows.length
  rw [lenientOutcome]
  cases hresult : x.evaluateColumns (Dictionary.bindAll [] e.names (e.columnsOf rows)) rows.length with
  | ok ys =>
    have hys := hstrict.ok_iff.mp hresult
    refine congrArg Except.ok (List.forall₂_eq_eq_eq ▸ ?_)
    rw [List.forall₂_map_left_iff, List.forall₂_map_right_iff]
    refine hys.flip.imp fun y row hy => ?_
    rw [settled, hy]
    rfl
  | error failure =>
    have hall := predictRows_eq (b := []) hx ht hrows fun _ _ => rfl
    rw [orElse_forgiven (hforgivable failure hresult), hall]
    simp only [Except.map, List.map_map]
    rfl

/-- Chunks are predicted row by row. -/
theorem predictChunks_eq (hlenient : e.settings.lenient = true) (hx : x.RunsAs t)
    (ht : ∀ u ∈ t.preorder, u.Ready Symbol.Lenient) {chunks : List (List (List Float))}
    (hne : ∀ chunk ∈ chunks, chunk ≠ []) (hrows : ∀ row ∈ chunks.flatten, row ∈ e.rows)
    (pool : ScratchPool Value) :
    (e.predictChunks x chunks pool).1 = .ok (chunks.flatten.map (e.settled t)) := by
  have hall : chunks.mapM (e.lenientOutcome x) =
      .ok (chunks.map fun chunk => chunk.map (e.settled t)) := mapM_map fun chunk hchunk =>
    lenientOutcome_eq hx ht (hne chunk hchunk) fun row hrow =>
      hrows row (List.mem_flatten.mpr ⟨chunk, hchunk, hrow⟩)
  rw [predictChunks_eq_mapM hlenient, hall]
  exact congrArg Except.ok List.map_flatten.symm

end Rows

/-! ## 5. Predictions -/

theorem isFinite_settle (y : Float) : Number.isFinite (settle y) = true := by
  unfold settle
  split
  · assumption
  · decide

/-- **A lenient evaluator predicts every row.** -/
theorem predict_settled {e : Evaluator} {t : Tree} (hlenient : e.settings.lenient = true)
    (ht : ∀ u ∈ t.preorder, u.Ready Symbol.Lenient) (pool : ScratchPool Value) :
    (e.predict (some t) pool).1 = .ok (e.rows.map (e.settled t)) := by
  obtain ⟨x, hx, hruns⟩ := e.expression_runsAs ht
  obtain ⟨hflatten, hne⟩ := e.chunks_flatten
  have hresult : e.predict (some t) pool = e.predictChunks x e.chunks pool := by
    simp only [predict, hx]
  have hchunks := predictChunks_eq hlenient hruns ht hne
    (fun row hrow => by rwa [hflatten] at hrow) pool
  rwa [hflatten, ← hresult] at hchunks

/-- **A lenient evaluator never fails, and predicts as many finite numbers as it has rows: on each row
what the tree evaluates to there, if that is a finite number, and zero otherwise.**  This holds for
every made tree of usual symbols that passes the check and whose operations fail, if at all, in ways
that are forgiven, for all settings otherwise, and for any pool; variables may be missing. -/
theorem predict_lenient {e : Evaluator} {t : Tree} (hlenient : e.settings.lenient = true)
    (hmade : t.Made) (hcheck : t.check = .ok ())
    (husual : ∀ u ∈ t.preorder, u.symbol.Usual Symbol.Lenient) (pool : ScratchPool Value) :
    ∃ ys, (e.predict (some t) pool).1 = .ok ys ∧ ys.length = e.rows.length ∧
      ∀ i (hrow : i < e.rows.length) (hy : i < ys.length),
        Number.isFinite ys[i] = true ∧
        (∀ y, evaluate (some t) (e.bindRow e.rows[i]) = .ok y → Number.isFinite y = true →
          ys[i] = y) ∧
        ((∀ y, evaluate (some t) (e.bindRow e.rows[i]) = .ok y → Number.isFinite y = false) →
          ys[i] = 0.0) := by
  have hready : ∀ u ∈ t.preorder, u.Ready Symbol.Lenient := fun u hu =>
    ⟨hmade u hu, (t.check_eq_ok_iff.mp hcheck) u hu, husual u hu⟩
  refine ⟨_, predict_settled hlenient hready pool, List.length_map _, fun i hrow hy => ?_⟩
  rw [List.getElem_map, settled]
  refine ⟨isFinite_settle _, fun y hvalue hfinite => ?_, fun hnot => ?_⟩
  · rw [hvalue, forgive, settle, if_pos hfinite]
  · cases hresult : evaluate (some t) (e.bindRow e.rows[i]) with
    | ok y => rw [forgive, settle, hnot y hresult, if_neg Bool.false_ne_true]
    | error failure => rw [forgive, settle, if_pos (by decide)]

end Evaluator

/-- One over a number, unless that is zero. -/
def inverse (x : Float) : Except Failure Float :=
  if x == 0.0 then .error .divisionByZero else .ok (1.0 / x)

/-- The symbol of an operation that fails on zero. -/
def Symbol.inverse : Symbol :=
  { Symbol.twice with
    name := "Inverse"
    operation := some (Value.liftM fun xs => FormulaEvolution.inverse (xs.getD 0 0.0)) }

/-- The inverse of a variable. -/
def Tree.inverse : Tree := .node .inverse [.variable (.forVariable "x")]

theorem Symbol.evaluate_inverse (xs : List Float) : Symbol.inverse.evaluate (xs.map .number) =
    (FormulaEvolution.inverse (xs.getD 0 0.0)).map Value.number :=
  Value.liftM_numbers (fun xs => FormulaEvolution.inverse (xs.getD 0 0.0)) xs

theorem Symbol.lenient_inverse : Symbol.inverse.Lenient := by
  intro xs _
  rw [Symbol.evaluate_inverse, FormulaEvolution.inverse]
  split
  · exact .inr ⟨.divisionByZero, rfl, rfl⟩
  · exact .inl ⟨_, rfl⟩

/-- The tree is evaluated by the operation. -/
theorem Tree.evaluate_inverse {b : Bindings} {x : Float} (h : b.value? "x" = some (.number x)) :
    evaluate (some .inverse) b = FormulaEvolution.inverse x := by
  have hargs : Tree.values b [.variable (.forVariable "x")] = .ok [.number x] := by
    rw [Tree.values, Tree.value_bound h]
    rfl
  have hvalue : Tree.inverse.value b = (FormulaEvolution.inverse x).map Value.number := by
    have hnode : Tree.combine b .inverse [.number x] =
        (FormulaEvolution.inverse x).map Value.number :=
      (Tree.combine_numbers rfl [x]).trans (Symbol.evaluate_inverse [x])
    rw [Tree.value_eq, ← hnode]
    exact congrArg (· >>= Tree.combine b .inverse) hargs
  cases hx : FormulaEvolution.inverse x with
  | ok y => exact Evaluator.evaluate_eq (by rw [hvalue, hx]; rfl)
  | error failure => exact Evaluator.evaluate_fails (by rw [hvalue, hx]; rfl)

namespace Evaluator

/-- Two rows in one chunk; the inverse fails on the first one. -/
def forgiving : Evaluator where
  names := ["x"]
  rows := [[0.0], [2.0]]
  targets := [0.0, 0.0]
  goal := .regression
  settings := { lenient := true }
  width := by simp
  count := rfl
  inhabited := by simp

/-- The inverse fails on the first row and not on the second one, and the failure leaves the
prediction for the second one alone. -/
theorem predict_inverse : Evaluator.forgiving.settings.lenient = true ∧
    Tree.inverse.Made ∧ Tree.inverse.check = .ok () ∧
    (∀ u ∈ Tree.inverse.preorder, u.symbol.Usual Symbol.Lenient) ∧
    (Evaluator.forgiving.predict (some .inverse) .usual).1 = .ok [0.0, 0.5] := by
  have hnodes : ∀ {P : Tree → Prop}, (∀ u ∈ Tree.inverse.preorder, P u) ↔
      P Tree.inverse ∧ P (.variable (.forVariable "x")) := by
    intro P
    simp [Tree.inverse, Tree.preorder, Tree.preorderAll]
  have hmade : Tree.inverse.Made := hnodes.mpr ⟨⟨rfl, rfl⟩, rfl⟩
  have husual : ∀ u ∈ Tree.inverse.preorder, u.symbol.Usual Symbol.Lenient :=
    hnodes.mpr ⟨.custom rfl rfl rfl Symbol.lenient_inverse, .input "x" ⟨by decide, by decide⟩⟩
  refine ⟨rfl, hmade, rfl, husual, ?_⟩
  obtain ⟨ys, hpredicts, hlength, hvalues⟩ :=
    predict_lenient (e := .forgiving) rfl hmade rfl husual .usual
  have hfails : inverse 0.0 = .error .divisionByZero := by rw [inverse, if_pos (by decide)]
  have hhalf : inverse 2.0 = .ok 0.5 := by
    rw [inverse, if_neg (by decide)]
    have hhalf : (1.0 / 2.0 : Float) = 0.5 := by decide +kernel
    rw [hhalf]
  match ys, hlength with
  | [y, z], _ =>
    have hy : y = 0.0 := (hvalues 0 (by decide) (by simp)).2.2 fun y hy => by
      have hvalue := Tree.evaluate_inverse (b := Evaluator.forgiving.bindRow [0.0]) (x := 0.0) rfl
      cases (hvalue.trans hfails).symm.trans hy
    have hz : z = 0.5 := (hvalues 1 (by decide) (by simp)).2.1 0.5
      ((Tree.evaluate_inverse (x := 2.0) rfl).trans hhalf) (by decide)
    rw [hpredicts, hy, hz]

end Evaluator
end FormulaEvolution
