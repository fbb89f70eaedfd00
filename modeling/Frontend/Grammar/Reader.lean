import Frontend.Grammar.Basic
import Frontend.Grammar.SymbolTable
import Frontend.Text.Lines

/-!
# Grammar text

A line holds a rule `Head ::= body | body | …`, whose bodies are sequences of symbols set
apart by blanks. What follows `--` at the start of a word is a comment. A head may have
several lines, and the first head is the start symbol. Rules are read with numbers for their
symbols, from a table that all lines share.
-/

namespace Frontend.Grammar

/-- A unit of a grammar line. Symbols are given by name or by number. -/
inductive LineToken (α : Type) where
  | symbol (s : α)
  | derives
  | alt
  deriving DecidableEq, Repr

/-- Tells whether a character sets words apart. -/
def isSeparator (c : Char) : Bool := c == ' ' || c == '\t' || c == '\r' || c == '\x0c'

/-- Tells whether a word can hold a character. -/
def isWordChar (c : Char) : Bool := !isSeparator c && c != '|' && c != '\n'

/-- The token of a word. -/
def LineToken.ofWord (word : List Char) : LineToken String :=
  if word = [':', ':', '='] then .derives else .symbol (String.ofList word)

/-- Splits a line into tokens, as far as a comment. -/
def scanLine : List Char → List (LineToken String)
  | [] => []
  | c :: rest =>
    if c = '|' then .alt :: scanLine rest
    else if !isWordChar c then scanLine rest
    else if c = '-' && rest.head? == some '-' then []
    else
      have : (rest.dropWhile isWordChar).length < rest.length + 1 :=
        Nat.lt_succ_of_le (List.dropWhile_sublist _).length_le
      .ofWord (c :: rest.takeWhile isWordChar) :: scanLine (rest.dropWhile isWordChar)
termination_by line => line.length

/-- Puts the symbols of a line into the table, and their numbers in place of their names. -/
def internTokens (table : SymbolTable) :
    List (LineToken String) → SymbolTable × List (LineToken Nat)
  | [] => (table, [])
  | .symbol name :: rest =>
    let (table, n) := table.add name
    let (table, tokens) := internTokens table rest
    (table, .symbol n :: tokens)
  | .derives :: rest =>
    let (table, tokens) := internTokens table rest
    (table, .derives :: tokens)
  | .alt :: rest =>
    let (table, tokens) := internTokens table rest
    (table, .alt :: tokens)

/-- Reads alternative bodies; there is at least one, and any may be empty. -/
def readBodies? : List (LineToken α) → Option (List (List α))
  | [] => some [[]]
  | .alt :: rest => (readBodies? rest).map ([] :: ·)
  | .symbol s :: rest =>
    match readBodies? rest with
    | some (body :: more) => some ((s :: body) :: more)
    | _ => none
  | .derives :: _ => none

/-- Reads the tokens of a rule as its head and its bodies. -/
def readRule? : List (LineToken α) → Option (α × List (List α))
  | .symbol head :: .derives :: rest => (readBodies? rest).map fun bodies => (head, bodies)
  | _ => none

/-- The rule with names in place of numbers. -/
def nameRule (table : SymbolTable) (rule : Nat × List (List Nat)) : String × List Body :=
  (table.nameOf rule.1, rule.2.map fun body => body.map table.nameOf)

/-- Checks a rule. The end marker is no symbol of a grammar, and the empty word is no head. -/
def checkRule? (rule : String × List Body) : Option (String × List Body) :=
  if rule.1 = emptySymbol ∨ rule.1 = endMarker then none
  else if rule.2.any fun body => body.contains endMarker then none
  else some rule

/-- Reads a line, which may be without tokens or a rule. The table goes on with its symbols. -/
def readLine (table : SymbolTable) (line : List Char) :
    SymbolTable × Option (Option (String × List Body)) :=
  match internTokens table (scanLine line) with
  | (table, []) => (table, some none)
  | (table, tokens) =>
    (table, (((readRule? tokens).map (nameRule table)).bind checkRule?).map some)

/-- Reads further lines; `start` is the first head, if there has been one. -/
def readLines (start : Option String) (rules : Rules) (table : SymbolTable) :
    List (Nat × List Char) → Except Error Grammar
  | [] =>
    match start with
    | none => .error .emptyGrammar
    | some start => ofRules start rules
  | (n, line) :: rest =>
    match readLine table line with
    | (_, none) => .error (.malformedRule n (String.ofList (Text.trim line)))
    | (table, some none) => readLines start rules table rest
    | (table, some (some (head, bodies))) =>
      readLines (some (start.getD head)) (rules.add head bodies) table rest

/-- Reads the text of a grammar. -/
def read (text : String) : Except Error Grammar :=
  readLines none ∅ ∅ (Text.numberedLines text.toList)

end Frontend.Grammar
