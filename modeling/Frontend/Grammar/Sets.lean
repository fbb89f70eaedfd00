import Frontend.Fixpoint
import Frontend.Grammar.Basic
import Frontend.OrdMap

/-!
# First and follow sets

The first set of a symbol holds the terminals that the words derived from it can begin with,
and the mark of the empty word if that can be derived. The follow set of a nonterminal holds
the terminals that can come right after it, and the end marker if nothing need come. Both
are least fixed points over the productions.
-/

namespace Frontend

/-- A set of symbols for each symbol. -/
abbrev SymbolSets := OrdMap String (OrdSet String)

namespace SymbolSets

/-- The first set of a sequence of symbols; a symbol without a set of its own is taken as a
terminal. -/
def ofSequence (first : SymbolSets) : List String → OrdSet String
  | [] => OrdSet.singleton emptySymbol
  | symbol :: rest =>
    match first.get? symbol with
    | none => OrdSet.singleton symbol
    | some set =>
      if emptySymbol ∈ set then (set.filter (· ≠ emptySymbol)) ∪ first.ofSequence rest else set

/-- Adds symbols to the set of a symbol. -/
def extend (sets : SymbolSets) (symbol : String) (more : OrdSet String) : SymbolSets :=
  sets.alter symbol fun old => old.getD ∅ ∪ more

end SymbolSets

namespace Grammar

/-- No first or follow set holds more symbols than this, and there is one for each head. -/
def setBound (g : Grammar) : Nat := g.nonterminals.length * (g.terminals.size + 2) + 1

/-- The first sets to start from: each terminal has itself, each nonterminal nothing. -/
def initialFirst (g : Grammar) : SymbolSets :=
  g.nonterminals.foldl (fun sets s => sets.insert s ∅) <|
    OrdMap.ofList (g.terminals.toList.map fun t => (t, OrdSet.singleton t))

/-- Adds to the first sets what each production shows. -/
def firstRound (ps : List Production) (first : SymbolSets) : SymbolSets :=
  ps.foldl (fun first p => first.extend p.head (first.ofSequence p.body)) first

/-- The first set of every symbol. -/
def firstSets (g : Grammar) : SymbolSets :=
  stabilize (firstRound g.productions) g.setBound g.initialFirst

/-- The follow sets to start from: the end marker follows the start symbol. -/
def initialFollow (g : Grammar) : SymbolSets :=
  let none : SymbolSets := OrdMap.ofList (g.nonterminals.map fun s => (s, ∅))
  none.extend g.start (OrdSet.singleton endMarker)

/-- Adds to the follow sets what the rest of a body of `head` shows. -/
def followInBody (g : Grammar) (first : SymbolSets) (head : String) :
    Body → SymbolSets → SymbolSets
  | [], follow => follow
  | symbol :: rest, follow =>
    if g.isNonterminal symbol then
      let next := first.ofSequence rest
      let more :=
        if emptySymbol ∈ next then next.filter (· ≠ emptySymbol) ∪ follow.getD head ∅ else next
      followInBody g first head rest (follow.extend symbol more)
    else followInBody g first head rest follow

/-- Adds to the follow sets what each production shows. -/
def followRound (g : Grammar) (first : SymbolSets) (follow : SymbolSets) : SymbolSets :=
  g.productions.foldl (fun follow p => g.followInBody first p.head p.body follow) follow

/-- The follow set of every nonterminal, given the first sets. -/
def followSetsFrom (g : Grammar) (first : SymbolSets) : SymbolSets :=
  stabilize (g.followRound first) g.setBound g.initialFollow

/-- The follow set of every nonterminal. -/
def followSets (g : Grammar) : SymbolSets := g.followSetsFrom g.firstSets

/-- Tells whether the empty word can be derived from a symbol. -/
def nullable (g : Grammar) (symbol : String) : Bool :=
  decide (emptySymbol ∈ g.firstSets.getD symbol ∅)

end Grammar

end Frontend
