/-
# Grammars

The vocabulary that trees are grown from: symbols with distinct names, in the order in which they
were added, each enabled or not.  A symbol that is not enabled is no candidate for new nodes; trees
that use it already are left alone.
-/
import FormulaEvolution.Symbol.Standard

namespace FormulaEvolution

/-- A symbol of a grammar and whether it is a candidate. -/
structure Entry where
  symbol : Symbol
  enabled : Bool := true

/-- A named vocabulary.  `Grammar.empty` and `Grammar.add` keep the names distinct. -/
structure Grammar where
  name : String
  entries : List Entry
  distinct : (entries.map (·.symbol.name)).Nodup

namespace Grammar

/-! ## 1. Queries -/

/-- The grammar without symbols. -/
def empty (name : String) : Grammar := ⟨name, [], by simp⟩

/-- The entry of a name. -/
def entry? (g : Grammar) (name : String) : Option Entry := g.entries.find? (·.symbol.name = name)

/-- The symbol of a name, enabled or not. -/
def symbol? (g : Grammar) (name : String) : Option Symbol := (g.entry? name).map (·.symbol)

/-- Whether a name is in the grammar. -/
def contains (g : Grammar) (name : String) : Bool := g.entries.any (·.symbol.name = name)

/-- All symbols. -/
def symbols (g : Grammar) : List Symbol := g.entries.map (·.symbol)

/-- The symbols that are candidates. -/
def enabledSymbols (g : Grammar) : List Symbol := (g.entries.filter (·.enabled)).map (·.symbol)

/-- Candidates without children. -/
def terminals (g : Grammar) : List Symbol := g.enabledSymbols.filter (·.isTerminal)

/-- Candidates with children. -/
def functions (g : Grammar) : List Symbol := g.enabledSymbols.filter (!·.isTerminal)

/-- Candidates that are variables. -/
def variableSymbols (g : Grammar) : List Symbol := g.enabledSymbols.filter (·.isVariable)

/-- How a grammar is shown. -/
def describe (g : Grammar) : String :=
  "Grammar(" ++ Text.Quoted.quote g.name ++ ", symbols=" ++ toString g.entries.length ++
    ", enabled=" ++ toString g.enabledSymbols.length ++ ")"

theorem contains_iff {g : Grammar} {name : String} :
    g.contains name = true ↔ name ∈ g.entries.map (·.symbol.name) := by
  simp [contains, List.any_eq_true, List.mem_map]

/-! ## 2. Changes -/

/-- Add a symbol at the end. -/
def add (g : Grammar) (e : Entry) : Except Failure Grammar :=
  if h : g.contains e.symbol.name = true then
    .error (.invalid (.repeatedSymbol e.symbol.name g.name))
  else
    .ok {
      name := g.name
      entries := g.entries ++ [e]
      distinct := by
        rw [contains_iff] at h
        simp only [List.map_append, List.map_cons, List.map_nil]
        refine List.nodup_append.mpr ⟨g.distinct, by simp, ?_⟩
        intro a ha b hb
        simp only [List.mem_singleton] at hb
        exact fun e' => h (hb ▸ e' ▸ ha) }

/-- Add symbols one after the other. -/
def addAll (g : Grammar) (es : List Entry) : Except Failure Grammar := es.foldlM add g

/-- A grammar of these symbols. -/
def ofEntries (name : String) (es : List Entry) : Except Failure Grammar := (empty name).addAll es

/-- Take a symbol out, if it is there. -/
def remove (g : Grammar) (name : String) : Grammar where
  name := g.name
  entries := g.entries.filter (·.symbol.name ≠ name)
  distinct := g.distinct.sublist (List.filter_sublist.map _)

/-- Set who is a candidate. -/
def setEnabledBy (g : Grammar) (enabled : Entry → Bool) : Grammar where
  name := g.name
  entries := g.entries.map fun e => { e with enabled := enabled e }
  distinct := by
    have : (g.entries.map fun e => { e with enabled := enabled e }).map (·.symbol.name) =
        g.entries.map (·.symbol.name) := by simp [List.map_map, Function.comp_def]
    rw [this]
    exact g.distinct

/-- Make a symbol a candidate or not. -/
def setEnabled (g : Grammar) (name : String) (enabled : Bool) : Except Failure Grammar :=
  if g.contains name then
    .ok (g.setEnabledBy fun e => if e.symbol.name = name then enabled else e.enabled)
  else .error (.absentKey ("Unknown symbol: " ++ name))

/-- A name and what comes after it in the order of code points, without repetition. -/
def sortedNames (names : List String) : List String :=
  (names.eraseDups).mergeSort (fun a b => a ≤ b)

/-- Make the named symbols the candidates, and no others. -/
def enableOnly (g : Grammar) (names : List String) : Except Failure Grammar :=
  match sortedNames (names.filter (!g.contains ·)) with
  | [] => .ok (g.setEnabledBy fun e => names.contains e.symbol.name)
  | unknown => .error (.absentKey ("Unknown symbols: " ++ Text.Quoted.list unknown))

/-! ## 3. Grammars for regression -/

/-- The name of grammars for regression. -/
def regressionName : String := "SymbolicRegressionGrammar"

/-- The names that inputs must not have: those of the functions and of the constants. -/
def takenNames (functions : List Entry) (allowConstants : Bool) : List String :=
  functions.map (·.symbol.name) ++ if allowConstants then [Symbol.constantName] else []

/-- Functions, then one variable for each input, then constants if they are allowed.  A variable
must not have the name of a function or of the constants. -/
def forRegression (columns : List String) (functions : List Entry) (allowConstants : Bool) :
    Except Failure Grammar := do
  if columns = [] then throw (.invalid .noVariables)
  if functions.isEmpty then throw (.invalid .noFunctions)
  match columns.filter (takenNames functions allowConstants).contains with
  | [] =>
    let g ← ofEntries regressionName functions
    let g ← g.addAll (columns.map fun name => { symbol := .forVariable name })
    if allowConstants then
      g.add { symbol := .forConstant Symbol.constantName defaultRange }
    else return g
  | clashes => throw (.shape (.clashes clashes))

/-! ## 4. Facts -/

/-- A candidate is a symbol of the grammar. -/
theorem mem_symbols_of_enabled {g : Grammar} {s : Symbol} (h : s ∈ g.enabledSymbols) :
    s ∈ g.symbols := by
  simp only [enabledSymbols, List.mem_map, List.mem_filter] at h
  obtain ⟨e, ⟨he, _⟩, rfl⟩ := h
  exact List.mem_map_of_mem he

theorem terminal_of_mem {g : Grammar} {s : Symbol} (h : s ∈ g.terminals) :
    s ∈ g.enabledSymbols ∧ s.isTerminal = true := by
  simpa [terminals, List.mem_filter] using h

theorem function_of_mem {g : Grammar} {s : Symbol} (h : s ∈ g.functions) :
    s ∈ g.enabledSymbols ∧ s.isTerminal = false := by
  simpa [functions, List.mem_filter] using h

theorem variable_of_mem {g : Grammar} {s : Symbol} (h : s ∈ g.variableSymbols) :
    s ∈ g.enabledSymbols ∧ s.isVariable = true := by
  simpa [variableSymbols, List.mem_filter] using h

/-- The symbol of a name has that name. -/
theorem name_of_symbol? {g : Grammar} {name : String} {s : Symbol} (h : g.symbol? name = some s) :
    s.name = name := by
  simp only [symbol?, entry?, Option.map_eq_some_iff] at h
  obtain ⟨e, he, rfl⟩ := h
  simpa using List.find?_some he

end Grammar
end FormulaEvolution
