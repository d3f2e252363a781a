/-
# Grammars for regression

Functions with distinct names, inputs and constants make a grammar exactly of these, in this order,
if no name is taken twice (`Grammar.forRegression_ok`).  The standard symbols have distinct names, so
any choice of their sets can be used.
-/
import FormulaEvolution.Grammar
import FormulaEvolution.Proofs.Sequence
import Mathlib.Data.List.Flatten

namespace FormulaEvolution

/-! ## 1. Standard symbols -/

/-- No two standard symbols have one name, and none has that of constants. -/
theorem standardNames_distinct :
    (standardSymbols.map (·.name)).Nodup ∧ Symbol.constantName ∉ standardSymbols.map (·.name) := by
  decide +kernel

/-- Chosen sets in their order are part of the standard symbols. -/
theorem symbols_sublist {sets : List SymbolSet} (h : sets.Sublist SymbolSet.all) :
    (sets.flatMap SymbolSet.symbols).Sublist standardSymbols := h.flatMap SymbolSet.symbols

namespace Grammar

/-! ## 2. Adding -/

/-- The names of all symbols. -/
def names (g : Grammar) : List String := g.entries.map (·.symbol.name)

variable {g : Grammar}

/-- A symbol with a new name is added at the end. -/
theorem add_ok {e : Entry} (h : e.symbol.name ∉ g.names) :
    ∃ g', g.add e = .ok g' ∧ g'.entries = g.entries ++ [e] := by
  have hnew : ¬g.contains e.symbol.name = true := fun hold => h (contains_iff.mp hold)
  unfold add
  rw [dif_neg hnew]
  exact ⟨_, rfl, rfl⟩

/-- Symbols with new and distinct names are added in order. -/
theorem addAll_ok : ∀ {es : List Entry} {g : Grammar},
    (g.names ++ es.map (·.symbol.name)).Nodup →
      ∃ g', g.addAll es = .ok g' ∧ g'.entries = g.entries ++ es
  | [], g, _ => ⟨g, rfl, by simp⟩
  | e :: es, g, h => by
    have hnew : e.symbol.name ∉ g.names := by
      intro hold
      exact (List.nodup_append.mp h).2.2 _ hold _ (by simp) rfl
    obtain ⟨g', hadd, hentries⟩ := add_ok hnew
    have hrest : (g'.names ++ es.map (·.symbol.name)).Nodup := by
      simpa [names, hentries] using h
    obtain ⟨g'', haddAll, hentries'⟩ := addAll_ok hrest
    refine ⟨g'', ?_, by rw [hentries', hentries, List.append_assoc, List.singleton_append]⟩
    rw [addAll, List.foldlM_cons, hadd]
    exact haddAll

/-- What is added comes last. -/
theorem entries_of_add {e : Entry} {g' : Grammar} (h : g.add e = .ok g') :
    g'.entries = g.entries ++ [e] := by
  unfold add at h
  split at h
  · cases h
  · cases h
    rfl

theorem entries_of_addAll : ∀ {es : List Entry} {g g' : Grammar}, g.addAll es = .ok g' →
    g'.entries = g.entries ++ es
  | [], g, g', h => by
    cases h
    exact (List.append_nil _).symm
  | e :: es, g, g'', h => by
    rw [addAll, List.foldlM_cons] at h
    obtain ⟨g', hadd, h⟩ := Except.bind_ok h
    rw [entries_of_addAll h, entries_of_add hadd, List.append_assoc, List.singleton_append]

/-! ## 3. Grammars for regression -/

section Regression

variable {columns : List String} {functions : List Entry} {allowConstants : Bool}

/-- The entries of a grammar for regression. -/
def regressionEntries (columns : List String) (functions : List Entry) (allowConstants : Bool) :
    List Entry :=
  functions ++ columns.map (fun name => { symbol := .forVariable name }) ++
    if allowConstants then [{ symbol := .forConstant Symbol.constantName defaultRange }] else []

theorem map_name_inputs (columns : List String) :
    (columns.map fun name => ({ symbol := .forVariable name } : Entry)).map (·.symbol.name) =
      columns := by
  rw [List.map_map]
  exact List.map_id' columns

/-- Functions and inputs with distinct names make a grammar of them. -/
theorem addInputs_ok (hdistinct : columns.Nodup)
    (hfunctions : (functions.map (·.symbol.name)).Nodup)
    (hclash : ∀ name ∈ columns, name ∉ functions.map (·.symbol.name)) :
    ∃ g g', ofEntries regressionName functions = .ok g ∧
      g.addAll (columns.map fun name => { symbol := .forVariable name }) = .ok g' ∧
      g'.entries = functions ++ columns.map fun name => { symbol := .forVariable name } := by
  have hfresh : ((empty regressionName).names ++ functions.map (·.symbol.name)).Nodup := by
    simpa [names, empty] using hfunctions
  obtain ⟨g, hg, hentries⟩ := addAll_ok hfresh
  have hentries : g.entries = functions := hentries
  have hinputs : (g.names ++ (columns.map fun name =>
      ({ symbol := .forVariable name } : Entry)).map (·.symbol.name)).Nodup := by
    rw [map_name_inputs, names, hentries]
    refine List.nodup_append.mpr ⟨hfunctions, hdistinct, ?_⟩
    rintro name hname _ hcolumn rfl
    exact hclash name hcolumn hname
  obtain ⟨g', hg', hentries'⟩ := addAll_ok hinputs
  exact ⟨g, g', hg, hg', by rw [hentries', hentries]⟩

/-- **Functions, inputs and constants with distinct names make a grammar of them.** -/
theorem forRegression_ok (hcolumns : columns ≠ []) (hfunctions : functions ≠ [])
    (hdistinct : columns.Nodup) (htaken : (takenNames functions allowConstants).Nodup)
    (hclash : ∀ name ∈ columns, name ∉ takenNames functions allowConstants) :
    ∃ g, forRegression columns functions allowConstants = .ok g ∧
      g.entries = regressionEntries columns functions allowConstants := by
  have hfilter : columns.filter (takenNames functions allowConstants).contains = [] := by
    rw [List.filter_eq_nil_iff]
    intro name hname
    simpa using hclash name hname
  obtain ⟨hnames, -, hapart⟩ := List.nodup_append.mp htaken
  obtain ⟨g, g', hg, hg', hentries⟩ := addInputs_ok hdistinct hnames
    fun name hname h => hclash name hname (List.mem_append_left _ h)
  have hnil : ¬functions.isEmpty = true := by simpa using hfunctions
  have hall : forRegression columns functions allowConstants =
      if allowConstants then
        g'.add { symbol := .forConstant Symbol.constantName defaultRange }
      else .ok g' := by
    simp only [forRegression, if_neg hcolumns, if_neg hnil, hfilter, hg, hg', bind, Except.bind,
      pure, Except.pure]
  rw [hall]
  cases allowConstants with
  | false => exact ⟨g', rfl, by simp [regressionEntries, hentries]⟩
  | true =>
    have hnew : Symbol.constantName ∉ g'.names := by
      rw [names, hentries, List.map_append, map_name_inputs, List.mem_append, not_or]
      refine ⟨fun h => hapart _ h _ (by simp) rfl, fun h => hclash _ h ?_⟩
      simp [takenNames]
    obtain ⟨g'', hg'', hentries'⟩ := add_ok
      (e := { symbol := .forConstant Symbol.constantName defaultRange }) hnew
    exact ⟨g'', hg'', by simp [regressionEntries, hentries', hentries]⟩

/-- **A grammar for regression has the functions, the inputs and the constants.** -/
theorem entries_of_regression (h : forRegression columns functions allowConstants = .ok g) :
    g.entries = regressionEntries columns functions allowConstants := by
  unfold forRegression at h
  obtain ⟨-, h⟩ := Except.refuse_ok_iff.mp h
  obtain ⟨-, h⟩ := Except.refuse_ok_iff.mp h
  split at h
  · obtain ⟨g₁, hfunctions, h⟩ := Except.bind_ok h
    obtain ⟨g₂, hinputs, h⟩ := Except.bind_ok h
    have hentries := entries_of_addAll hinputs
    rw [entries_of_addAll hfunctions, empty, List.nil_append] at hentries
    cases allowConstants with
    | true => rw [entries_of_add h, hentries, regressionEntries, if_pos rfl]
    | false =>
      cases h
      rw [hentries, regressionEntries, if_neg Bool.false_ne_true, List.append_nil]
  · cases h

/-- The symbols of a grammar for regression. -/
theorem symbol_of_regression {s : Symbol}
    (hentries : g.entries = regressionEntries columns functions allowConstants)
    (h : s ∈ g.symbols) : s ∈ functions.map (·.symbol) ∨ (∃ name ∈ columns, s = .forVariable name) ∨
      s = .forConstant Symbol.constantName defaultRange := by
  obtain ⟨e, he, rfl⟩ := List.mem_map.mp h
  rw [hentries] at he
  rcases List.mem_append.mp he with he | he
  · rcases List.mem_append.mp he with he | he
    · exact .inl (List.mem_map_of_mem he)
    · obtain ⟨name, hname, rfl⟩ := List.mem_map.mp he
      exact .inr (.inl ⟨name, hname, rfl⟩)
  · split at he
    · obtain rfl := List.mem_singleton.mp he
      exact .inr (.inr rfl)
    · cases he

/-- The inputs are terminals of a grammar for regression. -/
theorem terminals_of_regression (hcolumns : columns ≠ [])
    (hentries : g.entries = regressionEntries columns functions allowConstants) :
    g.terminals ≠ [] := by
  obtain ⟨name, hname⟩ := List.exists_mem_of_ne_nil columns hcolumns
  have hentry : ({ symbol := .forVariable name } : Entry) ∈ g.entries := by
    rw [hentries]
    exact List.mem_append_left _ (List.mem_append_right _ (List.mem_map_of_mem hname))
  have henabled : Symbol.forVariable name ∈ g.enabledSymbols :=
    List.mem_map.mpr ⟨_, List.mem_filter.mpr ⟨hentry, rfl⟩, rfl⟩
  exact List.ne_nil_of_mem (List.mem_filter.mpr ⟨henabled, rfl⟩)

end Regression

end Grammar
end FormulaEvolution
