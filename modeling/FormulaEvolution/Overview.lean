/-
# Overviews

What there is, as documents to look at: symbols, grammars, trees, datasets and pools.  Nothing is
read back from an overview.
-/
import FormulaEvolution.Dataset.Basic
import FormulaEvolution.Grammar
import FormulaEvolution.ScratchPool
import FormulaEvolution.Tree.Document

namespace FormulaEvolution

/-- Texts as a document. -/
def Json.ofTexts (texts : List String) : Json := .list (texts.map .string)

/-- A symbol of a grammar. -/
def Entry.overview (e : Entry) : Json :=
  let s := e.symbol
  .object [("name", .string s.name), ("arity", .list [.int s.least, .int s.most]),
    ("description", .string s.description), ("frequency", .float s.frequency),
    ("range", .list [.float s.range.1, .float s.range.2]),
    ("kind", (s.kind.map fun k => Json.string k.name).getD .null),
    ("terminal", .bool s.isTerminal), ("constant", .bool s.isConstant),
    ("variable", .bool s.isVariable), ("functional", .bool s.isFunctional),
    ("compilable", .bool s.isCompilable), ("enabled", .bool e.enabled),
    ("repr", .string s.describe)]

/-- A grammar: its symbols, by what they are good for. -/
def Grammar.overview (g : Grammar) : Json :=
  let names (symbols : List Symbol) := Json.ofTexts (symbols.map (·.name))
  .object [("repr", .string g.describe), ("len", .int g.entries.length),
    ("all", names g.symbols), ("enabled", names g.enabledSymbols),
    ("terminals", names g.terminals), ("functions", names g.functions),
    ("variables", names g.variableSymbols)]

/-- The fields of the overview of a tree. -/
def treeOverview (t : Option Tree) : List (String × Json) :=
  [("expression", .string (treeText t)), ("length", .int (treeLength t)),
   ("depth", .int (treeDepth t)),
   ("constants", .list (((t.map Tree.constants).getD []).map .float))]

/-- A dataset. -/
def Dataset.overview (d : Dataset) : Json :=
  .object [("names", .ofTexts d.names), ("inputs", .list (d.rows.map fun r => .list (r.map .float))),
    ("targets", .list (d.targets.map .float)), ("len", .int d.size), ("repr", .string d.describe)]

/-- How a pool has been used. -/
def ScratchPool.overview {β : Type} (p : ScratchPool β) : Json :=
  .object [("created", .int p.created), ("rentals", .int p.rentals),
    ("available", .int p.available.length), ("max_size", .int p.maxSize)]

end FormulaEvolution
