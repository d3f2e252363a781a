/-
# Names of saved trees

The trees of a run are saved under names that have the number of the generation in them, with zeros in
front so that it has four places at least.  A new archive that has recorded the generations of a run has one
name for each generation that was due, and no others (`Archive.names_after`).

The names are listed in the order of their texts.  Among numbers with the same number of places that is the
order of the numbers; but where a number of a generation that was due has more places than the one before,
it begins with a one, the one before with a five at least, and the later name is listed first.  So the names
are in the order of the generations exactly if all their numbers have the same number of places: four are too
few from generation 10000 on (`Archive.names_disordered`).
-/
import FormulaEvolution.Proofs.Archive.Record
import FormulaEvolution.Proofs.Code.Constants

namespace FormulaEvolution

/-! ## 1. Digits -/

namespace Number

variable {ds es : List Char}

/-- The first digit counts for as many powers of ten as there are digits behind it. -/
theorem ofDigits_cons (d : Char) (ds : List Char) :
    ofDigits (d :: ds) = 10 ^ ds.length * (d.toNat - '0'.toNat) + ofDigits ds := by
  have hfirst : ofDigits (d :: ds) = Nat.ofDigitChars 10 ds (10 * 0 + (d.toNat - '0'.toNat)) := rfl
  rw [hfirst, Nat.mul_zero, Nat.zero_add, Nat.ofDigitChars_eq_ofDigitChars_zero]
  rfl

/-- A digit is the smaller one if it counts for less. -/
theorem digit_lt {d e : Char} (hd : d.isDigit = true) (h : d.toNat - '0'.toNat < e.toNat - '0'.toNat) :
    d < e := by
  have hzero := (Char.isDigit_iff_toNat.mp hd).1
  rw [Char.lt_def, UInt32.lt_iff_toNat_lt]
  change d.toNat < e.toNat
  omega

theorem digit_inj {d e : Char} (hd : d.isDigit = true) (he : e.isDigit = true)
    (h : d.toNat - '0'.toNat = e.toNat - '0'.toNat) : d = e := by
  have hd0 := (Char.isDigit_iff_toNat.mp hd).1
  have he0 := (Char.isDigit_iff_toNat.mp he).1
  exact Char.toNat_inj.mp (by omega)

/-- **Of as many digits those come first that spell the smaller number**, whatever is behind them. -/
theorem append_lt_of_ofDigits_lt : ∀ {ds es : List Char}, (∀ c ∈ ds, c.isDigit = true) →
    (∀ c ∈ es, c.isDigit = true) → ds.length = es.length → ofDigits ds < ofDigits es →
      ∀ xs ys : List Char, ds ++ xs < es ++ ys
  | [], [], _, _, _, hlt, _, _ => absurd hlt (Nat.lt_irrefl _)
  | d :: ds, e :: es, hds, hes, hlength, hlt, xs, ys => by
    obtain ⟨hd, hds⟩ := List.forall_mem_cons.mp hds
    obtain ⟨he, hes⟩ := List.forall_mem_cons.mp hes
    have hlength : ds.length = es.length := Nat.succ.inj hlength
    have hbound := ofDigits_lt hds
    have hbound' := ofDigits_lt hes
    rw [ofDigits_cons, ofDigits_cons, hlength] at hlt
    rw [hlength] at hbound
    rw [List.cons_append, List.cons_append, List.cons_lt_cons_iff]
    rcases Nat.lt_trichotomy (d.toNat - '0'.toNat) (e.toNat - '0'.toNat) with hless | hsame | hmore
    · exact .inl (digit_lt hd hless)
    · refine .inr ⟨digit_inj hd he hsame, ?_⟩
      rw [hsame] at hlt
      exact append_lt_of_ofDigits_lt hds hes hlength (by omega) xs ys
    · have hmul := Nat.mul_le_mul_left (10 ^ es.length) (Nat.succ_le_of_lt hmore)
      rw [Nat.mul_succ] at hmul
      omega

/-- Of two numbers that are spelt with a first digit of five at least and with one of one at most, the second
one comes first, whatever is behind them. -/
theorem append_lt_of_leading (hds : ∀ c ∈ ds, c.isDigit = true) (hes : ∀ c ∈ es, c.isDigit = true)
    (hds' : ds ≠ []) (hes' : es ≠ []) (hfive : 5 * 10 ^ (es.length - 1) ≤ ofDigits es)
    (htwo : ofDigits ds < 2 * 10 ^ (ds.length - 1)) (xs ys : List Char) : ds ++ xs < es ++ ys := by
  obtain ⟨d, ds, rfl⟩ := List.exists_cons_of_ne_nil hds'
  obtain ⟨e, es, rfl⟩ := List.exists_cons_of_ne_nil hes'
  obtain ⟨hd, hds⟩ := List.forall_mem_cons.mp hds
  have hbound := ofDigits_lt (List.forall_mem_cons.mp hes).2
  rw [ofDigits_cons, List.length_cons, Nat.add_sub_cancel] at hfive htwo
  have hone : d.toNat - '0'.toNat < 2 := by
    by_contra hmore
    have hmul := Nat.mul_le_mul_left (10 ^ ds.length) (Nat.le_of_not_lt hmore)
    omega
  have hfour : 4 < e.toNat - '0'.toNat := by
    by_contra hless
    have hmul := Nat.mul_le_mul_left (10 ^ es.length) (Nat.le_of_not_lt hless)
    omega
  rw [List.cons_append, List.cons_append, List.cons_lt_cons_iff]
  exact .inl (digit_lt hd (by omega))

end Number

/-! ## 2. Names -/

namespace Moment

/-- A padded number is that number spelt with digits, as many as are asked for or needed. -/
theorem padded_spec (places n : Nat) : (∀ c ∈ (padded places n).toList, c.isDigit = true) ∧
    Number.ofDigits (padded places n).toList = n ∧
    (padded places n).toList.length = max places (Nat.toDigits 10 n).length := by
  rw [padded, String.toList_ofList]
  refine ⟨fun c hc => ?_, ?_, ?_⟩
  · rcases List.mem_append.mp hc with hzero | hdigit
    · rw [List.eq_of_mem_replicate hzero]
      rfl
    · exact (Number.areDigits_toDigits n).2 c hdigit
  · have hzeros := Number.ofDigits_zeros (places - (Nat.toDigits 10 n).length) (Nat.toDigits 10 n) 0
    rw [List.replicate_zero, List.append_nil, pow_zero, Nat.mul_one] at hzeros
    exact hzeros.trans Nat.ofDigitChars_ten_toDigits
  · rw [List.length_append, List.length_replicate]
    omega

end Moment

namespace Archive

variable {a b : Archive} {f g : Files} {w : Workspace} {folder : String} {saveEvery : Int} {clock : Clock}
  {event : GenerationEvent} {events : List GenerationEvent} {m n k start : Nat}

/-- The number of places that a generation has in its name. -/
def places (n : Nat) : Nat := (generationText n).toList.length

theorem generationText_spec (n : Nat) : (∀ c ∈ (generationText n).toList, c.isDigit = true) ∧
    Number.ofDigits (generationText n).toList = n ∧ places n = max 4 (Nat.toDigits 10 n).length := by
  have htext : generationText (n : Int) = Moment.padded 4 n := by
    rw [generationText, if_neg (Int.not_lt.mpr (Int.natCast_nonneg n)), Int.natAbs_natCast]
  rw [places, htext]
  exact Moment.padded_spec 4 n

theorem four_le_places (n : Nat) : 4 ≤ places n := by
  rw [(generationText_spec n).2.2]
  exact Nat.le_max_left _ _

/-- A number has so many places if it is below the power of ten. -/
theorem places_le_iff (hk : 4 ≤ k) : places n ≤ k ↔ n < 10 ^ k := by
  rw [(generationText_spec n).2.2, Nat.max_le, and_iff_right hk]
  exact Nat.length_toDigits_le_iff (by decide) (by omega)

theorem places_mono (h : m ≤ n) : places m ≤ places n :=
  (places_le_iff (four_le_places n)).mpr (h.trans_lt ((places_le_iff (four_le_places n)).mp le_rfl))

/-- The characters of the name of a tree. -/
theorem toList_treeName (i : Int) :
    (treeName i).toList = "gen_".toList ++ ((generationText i).toList ++ "_best.json".toList) := by
  rw [treeName, String.toList_append, String.toList_append, List.append_assoc]

theorem treeName_lt_iff : treeName m < treeName n ↔ (generationText m).toList ++ "_best.json".toList <
    (generationText n).toList ++ "_best.json".toList := by
  have hchars : treeName m < treeName n ↔ (treeName m).toList < (treeName n).toList := Iff.rfl
  rw [hchars, toList_treeName, toList_treeName]
  have hfront : "gen_".toList = ['g', 'e', 'n', '_'] := by decide
  simp only [hfront, List.cons_append, List.nil_append, List.cons_lt_cons_iff, Char.lt_irrefl, false_or,
    true_and]

/-- **Among names with as many places the smaller number comes first.** -/
theorem treeName_lt (hplaces : places m = places n) (h : m < n) : treeName m < treeName n := by
  obtain ⟨hm, hmvalue, -⟩ := generationText_spec m
  obtain ⟨hn, hnvalue, -⟩ := generationText_spec n
  exact treeName_lt_iff.mpr
    (Number.append_lt_of_ofDigits_lt hm hn hplaces (by rwa [hmvalue, hnvalue]) _ _)

/-- **Where a number of at most twice the size has more places, it comes first.** -/
theorem treeName_gt (hplaces : places m < places n) (h : n ≤ 2 * m) : treeName n < treeName m := by
  obtain ⟨hm, hmvalue, -⟩ := generationText_spec m
  obtain ⟨hn, hnvalue, -⟩ := generationText_spec n
  have hfour := four_le_places m
  have hbelow : m < 10 ^ places m := (places_le_iff hfour).mp le_rfl
  have habove : 10 ^ places m ≤ n := Nat.le_of_not_lt fun hlt =>
    Nat.not_le_of_lt hplaces ((places_le_iff hfour).mpr hlt)
  have hsucc : places n ≤ places m + 1 := by
    refine (places_le_iff (by omega)).mpr ?_
    rw [pow_succ]
    omega
  have hlength : places n - 1 = places m := by omega
  have hten : 10 ^ places m = 10 * 10 ^ (places m - 1) := by
    rw [← pow_succ', Nat.sub_add_cancel (by omega)]
  refine treeName_lt_iff.mpr (Number.append_lt_of_leading hn hm ?_ ?_ ?_ ?_ _ _)
  · exact List.ne_nil_of_length_pos (by rw [← places]; omega)
  · exact List.ne_nil_of_length_pos (by rw [← places]; omega)
  · rw [← places, hmvalue]
    omega
  · rw [← places, hnvalue, hlength]
    omega

/-- Numbers have different names. -/
theorem treeName_inj (h : treeName m = treeName n) : m = n := by
  have hchars := congrArg String.toList h
  rw [toList_treeName, toList_treeName] at hchars
  have htext := List.append_cancel_right (List.append_cancel_left hchars)
  rw [← (generationText_spec m).2.1, htext, (generationText_spec n).2.1]

theorem isStep_treeName (n : Nat) : Files.IsStep (treeName n) := by
  have hchars := toList_treeName n
  have hfront : "gen_".toList = ['g', 'e', 'n', '_'] := by decide
  have hshort : ∀ other : String, other.toList.length < 4 → treeName n ≠ other := by
    rintro other hother rfl
    rw [hchars, List.length_append, hfront] at hother
    exact absurd hother (by simp)
  refine ⟨hshort "" (by decide), ⟨hshort "." (by decide), hshort ".." (by decide)⟩, fun hslash => ?_⟩
  rw [hchars, List.mem_append, List.mem_append] at hslash
  rcases hslash with hfront | hdigit | hback
  · exact absurd hfront (by decide)
  · exact absurd ((generationText_spec n).1 '/' hdigit) (by decide)
  · exact absurd hback (by decide)

/-- The name of a tree ends as names of trees do. -/
theorem endsAsTree (i : Int) : treeEnding.isSuffixOf (treeName i).toList = true := by
  rw [List.isSuffixOf_iff_suffix, toList_treeName, ← List.append_assoc]
  exact List.suffix_append_of_suffix (by decide)

/-! ## 3. Saved trees -/

/-- The names of the saved trees, in the order in which they were first saved. -/
def savedNames (a : Archive) (f : Files) : List String :=
  (f.namesIn (treeFolder a.folder)).filter fun name => treeEnding.isSuffixOf name.toList

theorem treeNames_eq (a : Archive) (f : Files) :
    a.treeNames f = (a.savedNames f).mergeSort fun x y => x ≤ y := rfl

theorem isStep_log : Files.IsStep "evolution_log.json" :=
  ⟨by decide, ⟨by decide, by decide⟩, by decide⟩

/-- Logs and trees are in different folders. -/
theorem logFolder_ne_treeFolder (folder : String) :
    Files.route (logFolder folder) ≠ Files.route (treeFolder folder) := by
  rw [logFolder, treeFolder, Files.route_join folder isStep_logs, Files.route_join folder isStep_trees]
  intro hsame
  exact absurd (List.cons.inj (List.append_cancel_left hsame)).1 (by decide)

/-- Writing the log does not show among the trees. -/
theorem savedNames_log {text : String} (h : f.write a.logPath text = .ok g) :
    a.savedNames g = a.savedNames f := by
  rw [savedNames, Files.namesIn_write_elsewhere isStep_log h (logFolder_ne_treeFolder a.folder), savedNames]

/-- A tree that is saved under a new name comes behind the others. -/
theorem savedNames_tree {t : Option Tree} (h : a.saveTree t (treeName n) f = .ok g)
    (hnew : treeName n ∉ a.savedNames f) : a.savedNames g = a.savedNames f ++ [treeName n] := by
  have hfile : treeName n ∉ f.namesIn (treeFolder a.folder) := fun hin =>
    hnew (List.mem_filter.mpr ⟨hin, endsAsTree n⟩)
  rw [savedNames, Files.namesIn_write_new (isStep_treeName n) h hfile, List.filter_append, savedNames]
  exact congrArg _ (List.filter_eq_self.mpr (List.forall_mem_singleton.mpr (endsAsTree n)))

/-- **Recording a generation saves its tree under its name, if it is due, and no other tree.** -/
theorem savedNames_record {entry : LogEntry} (h : (a.record event w).1 = .ok entry)
    (hnumber : event.generation = n) (htree : event.bestTree.isSome)
    (hnew : treeName n ∉ a.savedNames w.files) :
    (a.record event w).2.1.savedNames (a.record event w).2.2.files =
      a.savedNames w.files ++ if a.isDue n then [treeName n] else [] := by
  obtain ⟨time, moment, kept, -, -, hnoted, hkept, hwritten⟩ := record_ok h
  have hfolder : ∀ files, (a.noting entry).savedNames files = a.savedNames files := fun _ => rfl
  rw [hnoted, hfolder, savedNames_log hwritten]
  obtain ⟨t, ht⟩ := Option.isSome_iff_exists.mp htree
  rw [keepTree, hnumber, ht] at hkept
  cases hdue : a.isDue n with
  | true =>
    rw [hdue] at hkept
    rw [if_pos rfl]
    exact savedNames_tree hkept hnew
  | false =>
    rw [hdue] at hkept
    cases hkept
    rw [if_neg Bool.false_ne_true, List.append_nil]

/-! ## 4. Runs -/

/-- Generations as a run tells of them after `start` others: one after the other, each with a best tree. -/
def Succession : Nat → List GenerationEvent → Prop
  | _, [] => True
  | start, event :: events =>
    event.generation = (start + 1 : Nat) ∧ event.bestTree.isSome ∧ Succession (start + 1) events

/-- The generations after `start` others whose trees are saved. -/
def dueAfter (a : Archive) (start count : Nat) : List Nat :=
  (List.range' (start + 1) count).filter fun n => a.isDue n

theorem mem_dueAfter {count : Nat} : n ∈ a.dueAfter start count ↔
    start < n ∧ n ≤ start + count ∧ a.interval ∣ n := by
  rw [dueAfter, List.mem_filter, List.mem_range'_1, isDue, decide_eq_true_iff, Nat.dvd_iff_mod_eq_zero]
  omega

/-- **The trees of the generations that are due are saved in their order.** -/
theorem savedNames_after : ∀ {events : List GenerationEvent} {start : Nat} {a : Archive} {w : Workspace},
    Succession start events → a.Accepts w events →
      (∀ name ∈ a.savedNames w.files, ∃ m ≤ start, name = treeName m) →
        (a.after w events).1.savedNames (a.after w events).2.files =
          a.savedNames w.files ++ (a.dueAfter start events.length).map fun n : Nat => treeName n
  | [], _, _, _, _, _, _ => (List.append_nil _).symm
  | event :: events, start, a, w, ⟨hnumber, htree, hrest⟩, ⟨⟨entry, hentry⟩, haccepts⟩, hold => by
    have hnew : treeName (start + 1 : Nat) ∉ a.savedNames w.files := by
      intro hin
      obtain ⟨m, hm, hname⟩ := hold _ hin
      have := treeName_inj hname
      omega
    have hstep := savedNames_record hentry hnumber htree hnew
    have hinterval : (a.record event w).2.1.dueAfter (start + 1) events.length =
        a.dueAfter (start + 1) events.length := by
      obtain ⟨-, -, -, -, -, hnoted, -, -⟩ := record_ok hentry
      rw [hnoted]
      rfl
    have hlater := savedNames_after hrest haccepts fun name hname => by
      rw [hstep] at hname
      rcases List.mem_append.mp hname with hname | hname
      · obtain ⟨m, hm, rfl⟩ := hold name hname
        exact ⟨m, hm.trans (Nat.le_succ start), rfl⟩
      · split at hname
        · exact ⟨start + 1, le_rfl, List.mem_singleton.mp hname⟩
        · exact absurd hname List.not_mem_nil
    have hdue : (a.dueAfter start (events.length + 1)).map (fun n : Nat => treeName n) =
        (if a.isDue (start + 1 : Nat) then [treeName (start + 1 : Nat)] else []) ++
          (a.dueAfter (start + 1) events.length).map fun n : Nat => treeName n := by
      rw [dueAfter, dueAfter, List.range'_succ, List.filter_cons]
      split <;> rfl
    rw [after, hlater, hstep, hinterval, List.append_assoc, List.length_cons, hdue]

/-! ## 5. Order -/

/-- A list of names is in order exactly if sorting leaves it as it is. -/
theorem mergeSort_eq_iff (names : List String) :
    names.mergeSort (fun x y => x ≤ y) = names ↔ names.Pairwise (· ≤ ·) := by
  have hsorted : (names.mergeSort fun x y => x ≤ y).Pairwise fun x y => decide (x ≤ y) = true := by
    refine List.pairwise_mergeSort ?_ ?_ names
    · intro x y z hxy hyz
      exact decide_eq_true (String.le_trans (of_decide_eq_true hxy) (of_decide_eq_true hyz))
    · intro x y
      simpa using String.le_total x y
  constructor
  · intro heq
    rw [heq] at hsorted
    exact hsorted.imp fun h => of_decide_eq_true h
  · intro hpairs
    exact List.mergeSort_of_pairwise (hpairs.imp fun h => decide_eq_true h)

theorem pairwise_lt_dueAfter (a : Archive) (start count : Nat) :
    (a.dueAfter start count).Pairwise (· < ·) := (List.pairwise_lt_range' 1).filter _

/-- What holds between the members of a rising list in their order holds wherever one is the smaller. -/
theorem of_lt_of_pairwise {R : Nat → Nat → Prop} {ns : List Nat} (hrising : ns.Pairwise (· < ·))
    (h : ns.Pairwise R) (hm : m ∈ ns) (hn : n ∈ ns) (hlt : m < n) : R m n := by
  obtain ⟨before, rest, rfl⟩ := List.append_of_mem hm
  obtain ⟨-, -, hearlier⟩ := List.pairwise_append.mp hrising
  rcases List.mem_append.mp hn with hn | hn
  · exact absurd (hearlier n hn m List.mem_cons_self) (Nat.lt_asymm hlt)
  · rcases List.mem_cons.mp hn with rfl | hn
    · exact absurd hlt (Nat.lt_irrefl _)
    · exact (List.pairwise_cons.mp (List.pairwise_append.mp h).2.1).1 n hn

section Ordered

variable {count : Nat}
  (hnames : (a.dueAfter start count).Pairwise fun m n : Nat => treeName m ≤ treeName n)

include hnames

/-- Where names are in order, the next generation that is due has as many places: it is at most twice the
one before, so that with more places it would come first. -/
theorem places_next (hm : m ∈ a.dueAfter start count) (hn : m + a.interval ∈ a.dueAfter start count) :
    places (m + a.interval) = places m := by
  obtain ⟨hpos, -, hdvd⟩ := mem_dueAfter.mp hm
  have hle := Nat.le_of_dvd (by omega) hdvd
  have hrises := of_lt_of_pairwise (a.pairwise_lt_dueAfter start count) hnames hm hn
    (Nat.lt_add_of_pos_right a.positive)
  refine Nat.le_antisymm (Nat.le_of_not_lt fun hmore => ?_) (places_mono (Nat.le_add_right _ _))
  exact String.not_le.mpr (treeName_gt hmore (by omega)) hrises

theorem places_later (hm : m ∈ a.dueAfter start count) : ∀ j,
    m + a.interval * j ∈ a.dueAfter start count → places (m + a.interval * j) = places m
  | 0, _ => by rw [Nat.mul_zero, Nat.add_zero]
  | j + 1, hlast => by
    rw [Nat.mul_succ, ← Nat.add_assoc] at hlast ⊢
    obtain ⟨-, hle, hdvd⟩ := mem_dueAfter.mp hlast
    have hstart := (mem_dueAfter.mp hm).1
    have hbefore : m + a.interval * j ∈ a.dueAfter start count :=
      mem_dueAfter.mpr ⟨by omega, by omega, (Nat.dvd_add_left dvd_rfl).mp hdvd⟩
    exact (places_next hnames hbefore hlast).trans (places_later hm j hbefore)

theorem places_eq_of_le (hm : m ∈ a.dueAfter start count) (hn : n ∈ a.dueAfter start count)
    (hle : m ≤ n) : places n = places m := by
  obtain ⟨j, hj⟩ := Nat.dvd_sub (mem_dueAfter.mp hn).2.2 (mem_dueAfter.mp hm).2.2
  obtain rfl : n = m + a.interval * j := by omega
  exact places_later hnames hm j hn

end Ordered

/-- **The names of the generations that are due are in order exactly if their numbers have as many places.** -/
theorem pairwise_names_iff (a : Archive) (start count : Nat) :
    ((a.dueAfter start count).map fun n : Nat => treeName n).Pairwise (· ≤ ·) ↔
      ∀ p ∈ a.dueAfter start count, ∀ q ∈ a.dueAfter start count, places p = places q := by
  rw [List.pairwise_map]
  constructor
  · intro hnames p hp q hq
    rcases Nat.le_total p q with hle | hle
    · exact (places_eq_of_le hnames hp hq hle).symm
    · exact places_eq_of_le hnames hq hp hle
  · intro hplaces
    refine (a.pairwise_lt_dueAfter start count).imp_of_mem fun {p q} hp hq hlt => ?_
    exact String.not_lt.mp (String.lt_asymm (treeName_lt (hplaces p hp q hq) hlt))

/-! ## 6. Listed names -/

/-- The trees of a run in a new archive without saved trees are listed under their names. -/
theorem treeNames_after (hnone : a.treeNames g = [])
    (hrun : Succession start events) (haccepts : a.Accepts ⟨g, clock⟩ events) :
    (a.after ⟨g, clock⟩ events).1.treeNames (a.after ⟨g, clock⟩ events).2.files =
      ((a.dueAfter start events.length).map fun n : Nat => treeName n).mergeSort fun x y => x ≤ y := by
  have hempty : a.savedNames g = [] := by
    have hperm := List.mergeSort_perm (a.savedNames g) fun x y => x ≤ y
    rw [← treeNames_eq, hnone] at hperm
    exact hperm.symm.eq_nil
  have hsaved := savedNames_after hrun haccepts fun name hname => by
    rw [hempty] at hname
    exact absurd hname List.not_mem_nil
  rw [treeNames_eq, hsaved, hempty, List.nil_append]

/-- **Names of the trees of a run**, of any length, in a new archive without saved trees.  There is one name
for each of its generations that is a multiple of the interval, and no other.  They are listed in the order
of the generations exactly if the numbers of these have as many places. -/
theorem names_after (hcreate : create folder saveEvery f = .ok (a, g)) (hnone : a.treeNames g = [])
    (hrun : Succession start events) (haccepts : a.Accepts ⟨g, clock⟩ events)
    (hafter : a.after ⟨g, clock⟩ events = (b, w)) :
    ∃ due : List Nat, due.Pairwise (· < ·) ∧
      (∀ n, n ∈ due ↔ start < n ∧ n ≤ start + events.length ∧ max 1 saveEvery ∣ n) ∧
      (b.treeNames w.files).Perm (due.map fun n : Nat => treeName n) ∧ (b.treeNames w.files).Nodup ∧
      (b.treeNames w.files = (due.map fun n : Nat => treeName n) ↔
        ∀ p ∈ due, ∀ q ∈ due, places p = places q) := by
  have hlisted := treeNames_after hnone hrun haccepts
  rw [hafter] at hlisted
  have hrising := a.pairwise_lt_dueAfter start events.length
  have hperm := List.mergeSort_perm ((a.dueAfter start events.length).map fun n : Nat => treeName n)
    fun x y => x ≤ y
  rw [← hlisted] at hperm
  refine ⟨a.dueAfter start events.length, hrising, fun n => ?_, hperm, hperm.nodup_iff.mpr ?_, ?_⟩
  · have hinterval : (a.interval : Int) = max 1 saveEvery := by
      rw [(fresh_of_create hcreate).interval_eq]
      omega
    rw [mem_dueAfter, ← hinterval, Int.natCast_dvd_natCast]
  · exact (List.nodup_iff_pairwise_ne.mpr (hrising.imp Nat.ne_of_lt)).map fun _ _ h => treeName_inj h
  · rw [hlisted, mergeSort_eq_iff, pairwise_names_iff]

/-- A generation with a best tree. -/
def planted (generation : Int) : GenerationEvent :=
  { bare generation with bestTree := some (some (.variable (.forVariable "x0"))) }

/-- The trees of the first two generations are listed in their order. -/
theorem names_small : small.treeNames smallFiles = [] ∧ Succession 0 [planted 1, planted 2] ∧
    small.Accepts ⟨smallFiles, []⟩ [planted 1, planted 2] ∧
    ∃ due : List Nat, (small.after ⟨smallFiles, []⟩ [planted 1, planted 2]).1.treeNames
      (small.after ⟨smallFiles, []⟩ [planted 1, planted 2]).2.files = due.map fun n : Nat => treeName n := by
  have hnone : small.treeNames smallFiles = [] := by decide +kernel
  have hrun : Succession 0 [planted 1, planted 2] := ⟨rfl, rfl, rfl, rfl, trivial⟩
  have haccepts : small.Accepts ⟨smallFiles, []⟩ [planted 1, planted 2] :=
    ⟨Except.ok_of_toBool (by decide +kernel), Except.ok_of_toBool (by decide +kernel), trivial⟩
  obtain ⟨due, -, hdue, -, -, horder⟩ :=
    names_after create_small hnone hrun haccepts (Prod.eta _).symm
  refine ⟨hnone, hrun, haccepts, due, horder.mpr fun p hp q hq => ?_⟩
  have hfour : ∀ n ∈ due, places n = 4 := by
    intro n hn
    have hle : n ≤ 2 := by simpa using ((hdue n).mp hn).2.1
    exact Nat.le_antisymm ((places_le_iff le_rfl).mpr (by omega)) (four_le_places n)
  rw [hfour p hp, hfour q hq]

/-- **The tree of generation 10000 is listed before that of generation 9999.** -/
theorem names_disordered : small.treeNames smallFiles = [] ∧
    Succession 9998 [planted 9999, planted 10000] ∧
    small.Accepts ⟨smallFiles, []⟩ [planted 9999, planted 10000] ∧
    (small.after ⟨smallFiles, []⟩ [planted 9999, planted 10000]).1.treeNames
      (small.after ⟨smallFiles, []⟩ [planted 9999, planted 10000]).2.files =
        ["gen_10000_best.json", "gen_9999_best.json"] := by
  have hsaved : (small.after ⟨smallFiles, []⟩ [planted 9999, planted 10000]).1.savedNames
      (small.after ⟨smallFiles, []⟩ [planted 9999, planted 10000]).2.files =
        ["gen_9999_best.json", "gen_10000_best.json"] := by decide +kernel
  refine ⟨by decide +kernel, ⟨rfl, rfl, rfl, rfl, trivial⟩,
    ⟨Except.ok_of_toBool (by decide +kernel), Except.ok_of_toBool (by decide +kernel), trivial⟩, ?_⟩
  rw [treeNames_eq, hsaved]
  simp [List.mergeSort]

end Archive
end FormulaEvolution
