import Frontend.LR.Simple

/-!
# Reports

A report on a grammar lists the productions, the first and the follow sets, the canonical
collection and, if there are any, the conflicts of the table.
-/

namespace Frontend

/-- The lines that list the sets of the nonterminals under a label. -/
def Grammar.setLines (g : Grammar) (label : String) (sets : SymbolSets) : List String :=
  g.nonterminals.map fun s =>
    let members := (sets.getD s ∅).toList.map (· ++ ", ")
    label ++ "," ++ s ++ ",\x7b" ++ String.join members ++ "\x7d"

/-- The listing of the first sets. -/
def Grammar.renderFirst (g : Grammar) (first : SymbolSets) : String :=
  Text.unlines (g.setLines "FIRST" first)

/-- The listing of the follow sets. -/
def Grammar.renderFollow (g : Grammar) (follow : SymbolSets) : String :=
  Text.unlines (g.setLines "FOLLOW" follow)

/-- The line of a conflict. -/
def Conflict.render (c : Conflict) : String :=
  String.intercalate ","
    ["X", toString c.state, c.symbol, c.kept.render, c.dropped.render]

/-- What is known of a grammar: its sets, its collection and its table. -/
structure Analysis where
  grammar : Grammar
  first : SymbolSets
  follow : SymbolSets
  collection : Collection
  table : ParseTable

namespace Analysis

/-- Analyses a grammar. -/
def ofGrammar (g : Grammar) : Analysis :=
  let first := g.firstSets
  let follow := g.followSetsFrom first
  let collection := Collection.ofGrammar g
  ⟨g, first, follow, collection, .ofCollection g follow collection⟩

/-- The report on a grammar. -/
def report (a : Analysis) : String :=
  let conflicts := a.table.conflicts.map Conflict.render
  a.table.renderProductions ++ "\n" ++ a.grammar.renderFirst a.first ++ "\n" ++
    a.grammar.renderFollow a.follow ++ "\n" ++ a.collection.render ++
    if conflicts.isEmpty then "" else "\n" ++ Text.unlines conflicts

end Analysis

end Frontend
