/-
# Lenient predictions, compiled or not

A lenient evaluator forgives failures while it predicts, not while it compiles.  So compiling shows:

* Without compiling it never fails with a failure that is to be forgiven, whatever the tree.  With
  compiling it does exactly if compiling fails so, which is with an evaluation fault exactly for the
  empty tree (`compile_evaluation_iff`); without compiling that is predicted as zero.
* A missing key of an operation is not to be forgiven, but compiled code tells it as a variable that is
  not bound, which is.  Otherwise both predict the same (`Matches`).

Forgiving failures keeps what matches (`Passed.orElse`), and lenient predictions are made of nothing else
(`Evaluator.lenientOutcome`).
-/
import FormulaEvolution.Proofs.Code.Failures
import FormulaEvolution.Proofs.Code.Naming
import FormulaEvolution.Proofs.Fitness.Leniency

namespace FormulaEvolution

/-! ## 1. Outcomes that match -/

/-- A failure that is a missing key. -/
def Misses {α : Type} (result : Except Failure α) : Prop :=
  ∃ failure, result = .error failure ∧ failure.kind = .key

/-- Outcomes that are the same unless the second misses a key. -/
def Matches {α : Type} (first second : Except Failure α) : Prop := first = second ∨ Misses second

/-- A missing key is not to be forgiven. -/
theorem Failure.not_lenient_of_key {failure : Failure} (h : failure.kind = .key) :
    failure.isLenient = false := by
  cases failure with
  | absentKey key => rfl
  | absentValue shown => rfl
  | arity fault => exact absurd h (arityKind_ne_key fault.breach)
  | _ => cases h

section Matching

variable {α β : Type} {first first' : Except Failure α}

theorem Matches.refl (result : Except Failure α) : Matches result result := .inl rfl

/-- Going on in ways that match. -/
theorem Matches.bind {next next' : α → Except Failure β} (h : Matches first first')
    (hnext : ∀ a, Matches (next a) (next' a)) : Matches (first >>= next) (first' >>= next') := by
  rcases h with rfl | ⟨failure, rfl, hkey⟩
  · cases first with
    | error failure => exact .refl _
    | ok a => exact hnext a
  · exact .inr ⟨failure, rfl, hkey⟩

theorem Matches.map (f : α → β) (h : Matches first first') : Matches (first.map f) (first'.map f) := by
  rcases h with rfl | ⟨failure, rfl, hkey⟩
  · exact .refl _
  · exact .inr ⟨failure, rfl, hkey⟩

theorem Matches.mapM {f g : α → Except Failure β} : ∀ {as : List α},
    (∀ a ∈ as, Matches (f a) (g a)) → Matches (as.mapM f) (as.mapM g)
  | [], _ => .refl _
  | a :: as, h => by
    rw [List.mapM_cons, List.mapM_cons]
    refine (h a List.mem_cons_self).bind fun b => ?_
    exact (mapM fun a' ha' => h a' (List.mem_cons_of_mem a ha')).bind fun bs => .refl _

/-- **What passes through compiled code matches**, once failures are forgiven in ways that match. -/
theorem Passed.orElse {second second' : Except Failure α} (h : Passed first first')
    (hsecond : Matches second second') :
    Matches (orElse first second) (FormulaEvolution.orElse first' second') := by
  cases h with
  | same _ =>
    cases first with
    | ok a => exact .refl _
    | error failure =>
      cases hlenient : failure.isLenient with
      | true => rwa [orElse_forgiven hlenient, orElse_forgiven hlenient]
      | false =>
        rw [orElse_left hlenient, orElse_left hlenient]
        exact .refl _
  | unbound name => exact hsecond
  | key hkey => exact .inr ⟨_, orElse_left (Failure.not_lenient_of_key hkey) _, hkey⟩

/-- Compiled code never misses a key. -/
theorem Passed.not_misses (h : Passed first first') {failure : Failure}
    (hfails : first = .error failure) : failure.kind ≠ .key := by
  cases h with
  | same hsame => exact hsame failure hfails
  | unbound name =>
    cases hfails
    nofun
  | key hkey =>
    cases hfails
    rw [Failure.kind_explain hkey]
    decide

/-- A failure that is left is one of both, and not to be forgiven if it is the first. -/
theorem orElse_error {second : Except Failure α} {failure : Failure}
    (h : orElse first second = .error failure) :
    first = .error failure ∧ failure.isLenient = false ∨ second = .error failure := by
  cases first with
  | ok a => cases h
  | error failure' =>
    cases hlenient : failure'.isLenient with
    | true => exact .inr ((orElse_forgiven hlenient second).symm.trans h)
    | false =>
      cases (orElse_left hlenient second).symm.trans h
      exact .inl ⟨rfl, hlenient⟩

end Matching

/-! ## 2. Failures of compiling -/

namespace Tree

theorem ofTemplate_ne_evaluation (fault : Text.Template.Fault) (fault' : EvaluationFault) :
    Failure.ofTemplate fault ≠ .evaluation fault' := by
  cases fault <;> nofun

theorem emitNode_ne_evaluation {t : Tree} {texts : List (List Char)} {nodes : List Tree}
    {fault : EvaluationFault} : t.emitNode texts nodes ≠ .error (.evaluation fault) := by
  have hemit : t.symbol.emit texts ≠ .error (.evaluation fault) := by
    unfold Symbol.emit
    split
    · nofun
    · nofun
    · cases Text.Template.fill _ texts with
      | ok text => nofun
      | error fault' =>
        intro h
        exact ofTemplate_ne_evaluation fault' fault (Except.error.inj h)
  unfold emitNode
  split
  · cases hresult : t.symbol.emit texts with
    | ok text => nofun
    | error failure =>
      intro h
      rw [hresult] at hemit
      exact hemit (congrArg Except.error (Except.error.inj h))
  · nofun

mutual

/-- Writing a tree never fails with an evaluation fault. -/
theorem emit_ne_evaluation {fault : EvaluationFault} : ∀ (t : Tree) (nodes : List Tree),
    t.emit nodes ≠ .error (.evaluation fault)
  | .constant s value, nodes => by
    rw [emit]
    split
    · nofun
    · exact emitNode_ne_evaluation
  | .variable s, nodes => by
    rw [emit]
    exact emitNode_ne_evaluation
  | .node s cs, nodes => by
    intro h
    rw [emit] at h
    cases hcs : emitAll cs nodes with
    | error failure =>
      rw [hcs] at h
      cases h
      exact emitAll_ne_evaluation cs nodes hcs
    | ok written =>
      rw [hcs] at h
      exact emitNode_ne_evaluation h

theorem emitAll_ne_evaluation {fault : EvaluationFault} : ∀ (cs nodes : List Tree),
    emitAll cs nodes ≠ .error (.evaluation fault)
  | [], nodes => by
    rw [emitAll]
    nofun
  | c :: cs, nodes => by
    intro h
    rw [emitAll] at h
    cases hc : c.emit nodes with
    | error failure =>
      rw [hc] at h
      cases h
      exact emit_ne_evaluation c nodes hc
    | ok written =>
      rw [hc] at h
      cases hcs : emitAll cs written.2 with
      | error failure =>
        simp only [bind, Except.bind, hcs] at h
        cases h
        exact emitAll_ne_evaluation cs written.2 hcs
      | ok rest =>
        simp only [bind, Except.bind, hcs] at h
        cases h

end

end Tree

/-- **Compiling fails with an evaluation fault exactly for the empty tree.** -/
theorem compile_evaluation_iff {t : Option Tree} {fault : EvaluationFault} :
    compile t = .error (.evaluation fault) ↔ t = none ∧ fault = .noRoot := by
  cases t with
  | none =>
    constructor
    · rintro ⟨⟩
      exact ⟨rfl, rfl⟩
    · rintro ⟨-, rfl⟩
      rfl
  | some t =>
    refine iff_of_false (fun h => ?_) nofun
    cases hwritten : t.emit [] with
    | error failure =>
      simp only [compile, expectRoot, bind, Except.bind, hwritten] at h
      cases h
      exact t.emit_ne_evaluation [] hwritten
    | ok written =>
      simp only [compile, expectRoot, bind, Except.bind, hwritten] at h
      split at h <;> cases h

/-! ## 3. Predictions -/

namespace Evaluator

/-- The same evaluator, with trees compiled or not. -/
def compiling (e : Evaluator) (compiled : Bool) : Evaluator :=
  { e with settings := { e.settings with compiled } }

section Chunks

variable {e : Evaluator} {x : Expression} {t : Tree}

/-! ### Failures that are left -/

theorem predictRows_error {failure : Failure} : ∀ {rows : List (List Float)} {b : Bindings},
    (e.predictRows x rows b).1 = .error failure →
      failure.isLenient = false ∧ ∃ b, x.evaluate b = .error failure
  | [], _, h => by cases h
  | row :: rows, b, h => by
    rw [predictRows_cons] at h
    cases hfirst : orElse (x.evaluate (b.bindAll e.names (row.map .number))) (.ok 0.0) with
    | error failure' =>
      rw [hfirst] at h
      cases h
      rcases orElse_error hfirst with ⟨hfails, hnot⟩ | hzero
      · exact ⟨hnot, _, hfails⟩
      · cases hzero
    | ok y =>
      rw [hfirst] at h
      cases hrest : (e.predictRows x rows (b.bindAll e.names (row.map .number))).1 with
      | error failure' =>
        simp only [bind, Except.bind, hrest] at h
        cases h
        exact predictRows_error hrest
      | ok ys =>
        simp only [bind, Except.bind, hrest] at h
        cases h

/-- **A lenient evaluator fails only as an expression does, and with what is not to be forgiven.** -/
theorem predictChunks_error (hlenient : e.settings.lenient = true)
    {chunks : List (List (List Float))} {pool : ScratchPool Value} {failure : Failure}
    (h : (e.predictChunks x chunks pool).1 = .error failure) : failure.isLenient = false ∧
      ((∃ b, x.evaluate b = .error failure) ∨
        ∃ b count, x.evaluateColumns b count = .error failure) := by
  rw [predictChunks_eq_mapM hlenient] at h
  cases hall : chunks.mapM (e.lenientOutcome x) with
  | ok yss =>
    rw [hall] at h
    cases h
  | error failure' =>
    rw [hall] at h
    cases h
    obtain ⟨chunk, -, hchunk⟩ := mapM_error hall
    unfold lenientOutcome at hchunk
    cases hboth : orElse (x.evaluateColumns (Dictionary.bindAll [] e.names (e.columnsOf chunk))
        chunk.length) (e.predictRows x chunk []).1 with
    | ok ys =>
      rw [hboth] at hchunk
      cases hchunk
    | error failure' =>
      rw [hboth] at hchunk
      cases hchunk
      rcases orElse_error hboth with ⟨hfails, hnot⟩ | hrows
      · exact ⟨hnot, .inr ⟨_, _, hfails⟩⟩
      · obtain ⟨hnot, hfails⟩ := predictRows_error hrows
        exact ⟨hnot, .inl hfails⟩

/-! ### The same tree, compiled or not -/

theorem predictRows_matches (hx : ∀ b, Passed (x.evaluate b) (evaluate (some t) b)) :
    ∀ (rows : List (List Float)) (b : Bindings),
      Matches (e.predictRows x rows b).1 (e.predictRows (.interpreted (some t)) rows b).1
  | [], _ => .refl _
  | row :: rows, b => by
    rw [predictRows_cons, predictRows_cons]
    refine ((hx _).orElse (.refl _)).bind fun y => ?_
    exact (predictRows_matches hx rows _).map (y :: ·)

/-- **What compiled code predicts matches what the tree predicts.** -/
theorem predictChunks_matches (hlenient : e.settings.lenient = true)
    (hx : ∀ b, Passed (x.evaluate b) (evaluate (some t) b) ∧
      ∀ count, Passed (x.evaluateColumns b count) (evaluateColumns (some t) b count))
    (chunks : List (List (List Float))) (pool : ScratchPool Value) :
    Matches (e.predictChunks x chunks pool).1
      (e.predictChunks (.interpreted (some t)) chunks pool).1 := by
  rw [predictChunks_eq_mapM hlenient, predictChunks_eq_mapM hlenient]
  refine (Matches.mapM fun chunk _ => ?_).map List.flatten
  exact (((hx _).2 _).orElse (predictRows_matches (fun b => (hx b).1) chunk [])).map _

/-- An expression that always fails in a way that is to be forgiven predicts zeros. -/
theorem predictChunks_zero (hlenient : e.settings.lenient = true) {failure : Failure}
    (hforgiven : failure.isLenient = true) (hrow : ∀ b, x.evaluate b = .error failure)
    (hcolumns : ∀ b count, x.evaluateColumns b count = .error failure)
    (chunks : List (List (List Float))) (pool : ScratchPool Value) :
    (e.predictChunks x chunks pool).1 = .ok (chunks.flatten.map fun _ => 0.0) := by
  have hrows : ∀ (rows : List (List Float)) (b : Bindings),
      (e.predictRows x rows b).1 = .ok (rows.map fun _ => 0.0) := by
    intro rows
    induction rows with
    | nil => exact fun _ => rfl
    | cons row rows ih =>
      intro b
      rw [predictRows_cons, hrow, orElse_forgiven hforgiven]
      simp only [bind, Except.bind, ih, Except.map, List.map_cons]
  have hsettle : settle 0.0 = 0.0 := if_pos (by decide)
  have hchunk : ∀ chunk, e.lenientOutcome x chunk = .ok (chunk.map fun _ => 0.0) := by
    intro chunk
    rw [lenientOutcome, hcolumns, orElse_forgiven hforgiven, hrows]
    simp [Except.map, hsettle]
  rw [predictChunks_eq_mapM hlenient, mapM_map fun chunk _ => hchunk chunk]
  exact congrArg Except.ok List.map_flatten.symm

end Chunks

/-! ### Evaluators -/

section Predictions

variable {e : Evaluator} {t : Option Tree} {pool : ScratchPool Value}

theorem predictRows_compiling (e : Evaluator) (compiled : Bool) (x : Expression) :
    ∀ (rows : List (List Float)) (b : Bindings),
      (e.compiling compiled).predictRows x rows b = e.predictRows x rows b
  | [], _ => rfl
  | row :: rows, b => by
    simp only [predictRows, predictRows_compiling e compiled x rows]
    rfl

/-- Once there is an expression, it makes no difference whether trees are compiled. -/
theorem predictChunks_compiling (e : Evaluator) (compiled : Bool) (x : Expression) :
    ∀ (chunks : List (List (List Float))) (pool : ScratchPool Value),
      (e.compiling compiled).predictChunks x chunks pool = e.predictChunks x chunks pool
  | [], _ => rfl
  | chunk :: chunks, pool => by
    have hlenient : (e.compiling compiled).predictLenient x chunk = e.predictLenient x chunk := by
      funext pool
      have hrows : ∀ d, (e.compiling compiled).predictRows x chunk d = e.predictRows x chunk d :=
        predictRows_compiling e compiled x chunk
      simp only [predictLenient, hrows]
      rfl
    have hchunk : (e.compiling compiled).predictChunk x chunk = e.predictChunk x chunk := by
      simp only [predictChunk, hlenient]
      rfl
    simp only [predictChunks, hchunk, predictChunks_compiling e compiled x chunks]

/-- Without compiling, the tree itself is evaluated. -/
theorem predict_interpreting (e : Evaluator) (t : Option Tree) (pool : ScratchPool Value) :
    (e.compiling false).predict t pool = e.predictChunks (.interpreted t) e.chunks pool :=
  e.predictChunks_compiling false (.interpreted t) e.chunks pool

theorem predict_compiling_ok {x : Expression} (hx : compile t = .ok x) :
    (e.compiling true).predict t pool = e.predictChunks x e.chunks pool := by
  have hexpression : (e.compiling true).expression t = .ok x := hx
  rw [predict, hexpression]
  exact e.predictChunks_compiling true x e.chunks pool

theorem predict_compiling_error {failure : Failure} (hfails : compile t = .error failure) :
    ((e.compiling true).predict t pool).1 = .error failure := by
  have hexpression : (e.compiling true).expression t = .error failure := hfails
  rw [predict, hexpression]

end Predictions

/-- **What passes through compiled code predicts what the tree does, exactly if the tree misses no
key.** -/
theorem predictChunks_eq_iff {e : Evaluator} {x : Expression} {t : Tree}
    (hlenient : e.settings.lenient = true)
    (hx : ∀ b, Passed (x.evaluate b) (evaluate (some t) b) ∧
      ∀ count, Passed (x.evaluateColumns b count) (evaluateColumns (some t) b count))
    (chunks : List (List (List Float))) (pool : ScratchPool Value) :
    (e.predictChunks x chunks pool).1 = (e.predictChunks (.interpreted (some t)) chunks pool).1 ↔
      ¬Misses (e.predictChunks (.interpreted (some t)) chunks pool).1 := by
  constructor
  · rintro heq ⟨failure, hfails, hkey⟩
    rcases (predictChunks_error hlenient (heq.trans hfails)).2 with ⟨b, hb⟩ | ⟨b, count, hb⟩
    · exact (hx b).1.not_misses hb hkey
    · exact ((hx b).2 count).not_misses hb hkey
  · exact (predictChunks_matches hlenient hx chunks pool).resolve_right

/-- **Compiling shows in lenient predictions exactly where it fails, in names with braces and in missing
keys**, for every tree, whatever the data, the chunks, the other settings and the pool.

* Without compiling no failure is left that is to be forgiven; with compiling exactly that of compiling
  the tree is.  It is an evaluation fault exactly for the empty tree, for which zeros are predicted
  without compiling.
* A tree of common symbols that passes the check is compiled exactly if every variable has a key.  If it
  is not nested too deeply, so that it stays as it is, the predictions are then those for the tree under
  its keys without compiling, exactly if no operation's missing key is left there.
* Without braces in its names, that is the tree itself. -/
theorem lenient_compiling {e : Evaluator} (hlenient : e.settings.lenient = true)
    (pool : ScratchPool Value) :
    (∀ t failure, ((e.compiling false).predict t pool).1 = .error failure →
      failure.isLenient = false) ∧
    (∀ t failure, failure.isLenient = true →
      (((e.compiling true).predict t pool).1 = .error failure ↔ compile t = .error failure)) ∧
    (∀ t fault, compile t = .error (.evaluation fault) ↔ t = none ∧ fault = .noRoot) ∧
    ((e.compiling false).predict none pool).1 = .ok (e.rows.map fun _ => 0.0) ∧
    ∀ t : Tree, t.Made → t.check = .ok () → (∀ u ∈ t.preorder, u.symbol.Common Symbol.Scalar) →
      ((∃ x, compile (some t) = .ok x) ↔ t.HasKeys) ∧
      (∀ x, compile (some t) = .ok x →
        x = .interpreted (some t) ∧ ((e.compiling true).predict (some t) pool).1 =
          ((e.compiling false).predict (some t) pool).1 ∨
        (((e.compiling true).predict (some t) pool).1 =
          ((e.compiling false).predict (some t.keyed) pool).1 ↔
            ¬Misses ((e.compiling false).predict (some t.keyed) pool).1)) ∧
      (t.Braceless → t.HasKeys ∧ t.keyed = t) := by
  refine ⟨fun t failure h => ?_, fun t failure hforgiven => ?_, fun _ _ => compile_evaluation_iff, ?_,
    fun t hmade hcheck hcommon => ?_⟩
  · rw [predict_interpreting] at h
    exact (predictChunks_error hlenient h).1
  · cases hcompiled : compile t with
    | error failure' => simp only [predict_compiling_error hcompiled, Except.error.injEq]
    | ok x =>
      rw [predict_compiling_ok hcompiled]
      refine iff_of_false (fun h => ?_) nofun
      have hnot := (predictChunks_error hlenient h).1
      rw [hforgiven] at hnot
      cases hnot
  · have hforgiven : (Failure.evaluation .noRoot).isLenient = true := rfl
    have hzero := predictChunks_zero (x := .interpreted none) hlenient hforgiven (fun _ => rfl)
      (fun _ _ => rfl) e.chunks pool
    rwa [e.chunks_flatten.1, ← predict_interpreting] at hzero
  · have hregular : ∀ u ∈ t.preorder, u.Regular Symbol.Scalar := fun u hu =>
      ⟨hmade u hu, (t.check_eq_ok_iff.mp hcheck) u hu, hcommon u hu⟩
    have hcompiles := compile_ok_iff hregular
    refine ⟨hcompiles, fun x hx => ?_, fun hbraceless =>
      ⟨hbraceless.hasKeys, hbraceless.keyed_eq hregular⟩⟩
    obtain ⟨y, hy, hruns⟩ := compile_keyed hregular (hcompiles.mp ⟨x, hx⟩)
    obtain rfl : x = y := Except.ok.inj (hx.symm.trans hy)
    simp only [predict_compiling_ok hx, predict_interpreting]
    rcases hruns with rfl | ⟨hcode, hruns⟩
    · exact .inl ⟨rfl, rfl⟩
    · exact .inr (predictChunks_eq_iff hlenient (hruns.passed hcode) e.chunks pool)

/-- Without compiling, the missing key of the operation is left; with compiling it is not.  For the empty
tree it is compiling that fails. -/
theorem forgiving_compiling : Evaluator.forgiving.settings.lenient = true ∧
    Tree.forgetful.Made ∧ Tree.forgetful.check = .ok () ∧
    (∀ u ∈ Tree.forgetful.preorder, u.symbol.Common Symbol.Scalar) ∧ Tree.forgetful.Braceless ∧
    ((forgiving.compiling true).predict (some .forgetful) .usual).1 ≠
      ((forgiving.compiling false).predict (some .forgetful) .usual).1 ∧
    ((forgiving.compiling true).predict none .usual).1 = .error (.evaluation .noRoot) ∧
    ((forgiving.compiling false).predict none .usual).1 = .ok [0.0, 0.0] := by
  obtain ⟨hmade, hcheck, husual⟩ := Tree.forgetful_usual
  have hcommon : ∀ u ∈ Tree.forgetful.preorder, u.symbol.Common Symbol.Scalar :=
    fun u hu => .inl (husual u hu)
  have hbraceless : Tree.forgetful.Braceless := by
    intro s hs
    obtain rfl : s = .forVariable "x" := by
      simpa [Tree.forgetful, Tree.preorder, Tree.preorderAll] using hs
    exact ⟨by decide, by decide⟩
  obtain ⟨-, hfails, hempty, hzeros, htrees⟩ := lenient_compiling (e := .forgiving) rfl .usual
  obtain ⟨-, hpredictions, hkeyed⟩ := htrees .forgetful hmade hcheck hcommon
  have hmisses : Misses ((forgiving.compiling false).predict (some .forgetful) .usual).1 :=
    ⟨.absentKey "k", rfl, rfl⟩
  refine ⟨rfl, hmade, hcheck, hcommon, hbraceless, ?_, ?_, hzeros⟩
  · rcases hpredictions _ compile_forgetful with ⟨hself, -⟩ | hiff
    · cases hself
    · rw [(hkeyed hbraceless).2] at hiff
      exact fun hsame => hiff.mp hsame hmisses
  · exact (hfails none (.evaluation .noRoot) rfl).mpr ((hempty none .noRoot).mpr ⟨rfl, rfl⟩)

/-- For the empty tree, compiling raises an evaluation fault where zeros are predicted without. -/
theorem empty_compiling : Evaluator.forgiving.settings.lenient = true ∧
    ((forgiving.compiling true).predict none .usual).1 = .error (.evaluation .noRoot) ∧
    ((forgiving.compiling false).predict none .usual).1 = .ok [0.0, 0.0] := by
  exact ⟨rfl, rfl, rfl⟩

end Evaluator
end FormulaEvolution
