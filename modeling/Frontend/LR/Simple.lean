import Frontend.Grammar.Sets
import Frontend.LR.Collection
import Frontend.LR.Table

/-!
# Simple LR tables

The table of a grammar shifts and goes as the collection does, accepts on the end marker
where the start production is complete, and reduces a complete production on the symbols
that can follow its head. A reduction takes a vacant cell only; so a shift wins over a
reduction, and of two reductions the production declared first.
-/

namespace Frontend

namespace ParseTable

/-- The row and the conflicts after an item of a state has been entered. -/
def enterItem (g : Grammar) (follow : SymbolSets) (c : Collection) (state : Nat)
    (filled : Row × List Conflict) (i : Item) : Row × List Conflict :=
  let (row, conflicts) := filled
  match i.next? c.productions with
  | some symbol =>
    match c.transition? state symbol with
    | some (.state target) =>
      let action := if g.isNonterminal symbol then Action.goto target else .shift target
      let (row, more) := row.set state symbol action
      (row, conflicts ++ more)
    | _ => (row, conflicts)
  | none =>
    -- Completing the start production is not a reduction but the end of the parse.
    if i.production = 0 then
      let (row, more) := row.set state endMarker .accept
      (row, conflicts ++ more)
    else
      let head := (c.productions[i.production]?.map Production.head).getD ""
      (follow.getD head ∅).toList.foldl
        (fun (row, conflicts) symbol =>
          let (row, more) := Row.setIfVacant state row symbol (.reduce i.production)
          (row, conflicts ++ more))
        (row, conflicts)

/-- The row of a state, and the conflicts in it. -/
def fillRow (g : Grammar) (follow : SymbolSets) (c : Collection) (state : Nat)
    (items : ItemSet) : Row × List Conflict :=
  items.toList.foldl (enterItem g follow c state) (∅, [])

/-- The table of a grammar, given its follow sets and its canonical collection. -/
def ofCollection (g : Grammar) (follow : SymbolSets) (c : Collection) : ParseTable :=
  let rows := (Text.numberFrom 0 c.states).map fun (n, s) => fillRow g follow c n s.items
  { productions := c.productions
    terminals := g.terminals.toList ++ [endMarker]
    nonterminals := g.nonterminals
    start := c.start
    rows := rows.map Prod.fst
    conflicts := rows.flatMap Prod.snd }

/-- The table of a grammar. -/
def ofGrammar (g : Grammar) : ParseTable :=
  ofCollection g g.followSets (Collection.ofGrammar g)

end ParseTable

end Frontend
