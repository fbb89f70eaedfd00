import Frontend.Grammar.Basic
import Frontend.OrdMap
import Frontend.Text.Lines

/-!
# Parse tables

A table has a row for each state, with an action for each symbol at most. When two actions
compete for a cell one of them is kept, and the clash is recorded. `ParseTable.csv` writes
the table with one column for each terminal, in the order of the table, and then for each
nonterminal by name.
-/

namespace Frontend

/-- What a parser does in a cell of its table. -/
inductive Action where
  /-- Push a state and go on to the next token. -/
  | shift (state : Nat)
  /-- Replace the body of a production by its head. -/
  | reduce (production : Nat)
  /-- The state to enter after a reduction. -/
  | goto (state : Nat)
  /-- The input is a sentence. -/
  | accept
  deriving DecidableEq, Repr

/-- The text of an action. -/
def Action.render : Action → String
  | shift n => "s" ++ toString n
  | reduce n => "r" ++ toString n
  | goto n => toString n
  | accept => "accept"

/-- A cell that two actions competed for. -/
structure Conflict where
  state : Nat
  symbol : String
  kept : Action
  dropped : Action
  deriving DecidableEq, Repr

/-! ## Rows -/

/-- The actions of one state. -/
abbrev Row := OrdMap String Action

namespace Row

/-- Writes an action into a cell of the row of `state`, in place of what was there. -/
def set (state : Nat) (row : Row) (symbol : String) (action : Action) : Row × List Conflict :=
  let conflicts :=
    match row.get? symbol with
    | some previous => if previous = action then [] else [⟨state, symbol, action, previous⟩]
    | none => []
  (row.insert symbol action, conflicts)

/-- Writes an action into a cell of the row of `state` if there is none yet. -/
def setIfVacant (state : Nat) (row : Row) (symbol : String) (action : Action) :
    Row × List Conflict :=
  match row.get? symbol with
  | none => (row.insert symbol action, [])
  | some kept => (row, if kept = action then [] else [⟨state, symbol, kept, action⟩])

end Row

/-! ## Tables -/

/-- A table with the productions that it reduces by. -/
structure ParseTable where
  productions : List Production
  /-- The columns of the terminals, the end marker among them. -/
  terminals : List String
  nonterminals : List String
  /-- The start symbol of the augmented grammar. -/
  start : String
  rows : List Row
  /-- The clashes in the order in which they arose. -/
  conflicts : List Conflict
  deriving DecidableEq

namespace ParseTable

/-- A table without actions. -/
def blank (states : Nat) (productions : List Production) (terminals nonterminals : List String)
    (start : String) : ParseTable :=
  ⟨productions, terminals, nonterminals, start, List.replicate states ∅, []⟩

/-- The number of states. -/
def size (t : ParseTable) : Nat := t.rows.length

/-- The action of a state on a symbol. -/
def action? (t : ParseTable) (state : Nat) (symbol : String) : Option Action :=
  t.rows[state]?.bind fun row => row.get? symbol

/-- The actions of a state; there are none if the state does not exist. -/
def row (t : ParseTable) (state : Nat) : Row := t.rows[state]?.getD ∅

/-- Replaces a row, and records conflicts. -/
def putRow (t : ParseTable) (state : Nat) (written : Row × List Conflict) : ParseTable :=
  { t with rows := t.rows.set state written.1, conflicts := t.conflicts ++ written.2 }

/-- Writes an action into a cell, in place of what was there; the state must exist. -/
def set? (t : ParseTable) (state : Nat) (symbol : String) (action : Action) :
    Option ParseTable :=
  t.rows[state]?.map fun row => t.putRow state (row.set state symbol action)

/-- Writes an action into a cell if there is none yet, and tells whether it did; the state
must exist. -/
def setIfVacant? (t : ParseTable) (state : Nat) (symbol : String) (action : Action) :
    Option (ParseTable × Bool) :=
  t.rows[state]?.map fun row =>
    (t.putRow state (row.setIfVacant state symbol action), !row.contains symbol)

/-! ## Listings -/

/-- A field of comma-separated text, quoted if it would be misread otherwise. -/
def csvField (s : String) : String :=
  if s.toList.any fun c => c == ',' || c == '"' || c == '\n' then
    String.ofList <|
      '"' :: s.toList.flatMap (fun c => if c == '"' then ['"', '"'] else [c]) ++ ['"']
  else s

/-- The symbols of the columns: terminals as listed, nonterminals by name. -/
def columns (t : ParseTable) : List String :=
  t.terminals ++ t.nonterminals.mergeSort fun a b => !decide (b < a)

/-- The text of a cell; it is blank if there is no action. -/
def cellText (row : Row) (symbol : String) : String :=
  match row.get? symbol with
  | some action => action.render
  | none => ""

/-- The table as comma-separated text. -/
def csv (t : ParseTable) : String :=
  let columns := t.columns
  Text.unlines <|
    String.intercalate "," ("STATE" :: columns.map csvField) ::
      (Text.numberFrom 0 t.rows).map fun (n, row) =>
        String.intercalate "," (toString n :: columns.map (cellText row))

/-- The listing of the productions. -/
def renderProductions (t : ParseTable) : String :=
  Text.unlines <|
    ["PS," ++ toString t.productions.length, ""] ++
      (Text.numberFrom 0 t.productions).map fun (n, p) =>
        "P," ++ toString n ++ "," ++ p.head ++ " -> " ++ p.bodyText

end ParseTable

end Frontend
