import Frontend.LR.Item
import Frontend.Text.Lines

/-!
# The canonical collection

The states of the parser are the sets of items that can be reached from the closure of the
opening item, in breadth-first order; the symbols of a state are taken in the order in which
they stand after its dots. A state that holds the completed start production accepts on the
end marker.
-/

namespace Frontend

/-- Where a state goes on a symbol. -/
inductive Transition where
  | state (n : Nat)
  | accept
  deriving DecidableEq, Repr

/-- A state of the collection with the states it goes to, in order of exploration. -/
structure CollectionState where
  items : ItemSet
  moves : List (String × Nat)
  deriving DecidableEq

/-- The states of a parser. -/
structure Collection where
  /-- The start symbol of the augmented grammar. -/
  start : String
  /-- The productions of the augmented grammar. -/
  productions : List Production
  states : List CollectionState
  deriving DecidableEq

namespace Collection

/-- The item that a parse begins with. -/
def openingItem : Item := ⟨0, 0⟩

/-- The item that completes a parse. -/
def completedItem : Item := ⟨0, 1⟩

/-- The sets of items that a state goes to, by symbol. -/
def successors (ps : List Production) (items : ItemSet) : List (String × ItemSet) :=
  ((items.nextSymbols ps).map fun symbol => (symbol, items.goto ps symbol)).filter
    fun (_, next) => !next.isEmpty

/-- The number of different items of a list of productions. -/
def itemCount (ps : List Production) : Nat :=
  ps.foldr (fun p n => p.body.length + 1 + n) 0

/-- The reachable sets of items in breadth-first order. -/
def itemSets (ps : List Production) : List ItemSet :=
  explore (fun items => (successors ps items).map Prod.snd) (subsetCount (itemCount ps))
    [ItemSet.closure ps (OrdSet.singleton openingItem)]

/-- The canonical collection of a grammar. -/
def ofGrammar (g : Grammar) : Collection :=
  let ps := g.augmentedProductions
  let sets := itemSets ps
  { start := g.augmentedStart
    productions := ps
    states := sets.map fun items =>
      ⟨items, (successors ps items).map fun (symbol, next) => (symbol, sets.idxOf next)⟩ }

/-- The number of states. -/
def size (c : Collection) : Nat := c.states.length

/-- The items of a state. -/
def items? (c : Collection) (state : Nat) : Option ItemSet :=
  c.states[state]?.map CollectionState.items

/-- The state that consists of the given items. -/
def find? (c : Collection) (items : ItemSet) : Option Nat :=
  (c.states.map CollectionState.items).idxOf? items

/-- Where a state goes on a symbol. -/
def CollectionState.transition? (s : CollectionState) (symbol : String) : Option Transition :=
  -- A grammar may use the end marker as a terminal; acceptance goes before such a move.
  if symbol = endMarker ∧ completedItem ∈ s.items then some .accept
  else (s.moves.lookup symbol).map .state

/-- Where the state of a number goes on a symbol. -/
def transition? (c : Collection) (state : Nat) (symbol : String) : Option Transition :=
  c.states[state]?.bind fun s => CollectionState.transition? s symbol

/-- The transitions of a state in order of exploration, acceptance last. -/
def transitions (c : Collection) (state : Nat) : List (String × Transition) :=
  match c.states[state]? with
  | none => []
  | some s =>
    (s.moves.map Prod.fst).filterMap
        (fun symbol => (CollectionState.transition? s symbol).map fun t => (symbol, t)) ++
      if completedItem ∈ s.items then [(endMarker, .accept)] else []

/-! ## Questions about any items

Items given from outside may have no production; there is no answer then.
-/

/-- The closure of a set of items. -/
def closure? (c : Collection) (items : ItemSet) : Option ItemSet :=
  if items.isValid c.productions then some (items.closure c.productions) else none

/-- Where a set of items goes on a symbol. -/
def goto? (c : Collection) (items : ItemSet) (symbol : String) : Option ItemSet :=
  if items.isValid c.productions then some (items.goto c.productions symbol) else none

/-- The texts of a set of items, in order. -/
def itemTexts? (c : Collection) (items : ItemSet) : Option (List String) :=
  items.toList.mapM (Item.render? c.productions)

/-! ## Listing -/

/-- The lines that list the items of a state, and an empty line. -/
def stateLines (c : Collection) (n : Nat) (s : CollectionState) : List String :=
  (s.items.toList.map fun i =>
    "C," ++ toString n ++ "," ++ (i.render? c.productions).getD "") ++ [""]

/-- The line of a transition. -/
def transitionLine (n : Nat) (symbol : String) (t : Transition) : String :=
  let target :=
    match t with
    | .state m => toString m
    | .accept => "accept"
  "T," ++ toString n ++ "," ++ symbol ++ "," ++ target

/-- The listing of the collection: the states, then the transitions. -/
def render (c : Collection) : String :=
  let states := Text.numberFrom 0 c.states
  Text.unlines <|
    ["CS," ++ toString c.size, ""] ++ (states.flatMap fun (n, s) => c.stateLines n s) ++
      states.flatMap fun (n, _) => (c.transitions n).map fun (symbol, t) =>
        transitionLine n symbol t

end Collection

end Frontend
