import Frontend.Text.Quoted

/-!
# Errors

Each constructor of `Error` is one cause, with the fragment, line or number that shows it.
`Error.message` is the wording. The last three causes cannot come from a user's input, only
from a parse table whose parts disagree: `Error.isInternal` tells them apart.
-/

namespace Frontend

/-- Why a pattern, a file of definitions, a grammar or a persisted automaton was refused, or
why a parser had to give up on its table. -/
inductive Error where
  /-- Unbalanced brackets, an escape of nothing, an empty class or an empty pattern. -/
  | malformedExpression (fragment : String)
  /-- Operators that cannot stand side by side. -/
  | invalidOperatorSequence (fragment : String)
  /-- Bounds of different classes, or out of order. -/
  | invalidRange (fragment : String)
  /-- A reference to a definition that does not exist. -/
  | undefinedReference (name : String)
  /-- Terminals of a grammar for which no token is defined, in increasing order. -/
  | undefinedTokens (tokens : List String)
  /-- A line that is no definition, a name defined twice, or references nested too deep. -/
  | malformedDefinition (line : Nat) (text : String)
  /-- A line that is no grammar rule. -/
  | malformedRule (line : Nat) (text : String)
  /-- A grammar without productions. -/
  | emptyGrammar
  /-- A start symbol without productions. -/
  | unknownStart (symbol : String)
  /-- A line of a persisted automaton that cannot be read. -/
  | malformedAutomaton (line : Nat) (reason : String)
  /-- A reduction after which the table has no state to go to. -/
  | missingGoto (state : Nat) (head : String)
  /-- A reduction of more states than the stack holds. -/
  | stackUnderflow (production : Nat)
  /-- A reduction by a production that the table does not have. -/
  | unknownProduction (production : Nat)
  deriving DecidableEq, Repr

namespace Error

open Text (quoted)

/-- What an error says to the user. -/
def message : Error → String
  | malformedExpression fragment => "malformed expression: " ++ fragment
  | invalidOperatorSequence fragment =>
    "invalid operator sequence " ++ quoted fragment ++ "; consider parentheses to disambiguate"
  | invalidRange fragment => "invalid range " ++ fragment
  | undefinedReference name => "undefined sub-expression <" ++ name ++ ">"
  | undefinedTokens tokens =>
    "grammar terminals not defined as tokens: " ++ String.intercalate ", " tokens
  | malformedDefinition line text =>
    "malformed definition at line " ++ toString line ++ ": " ++ quoted text
  | malformedRule line text =>
    "malformed grammar rule at line " ++ toString line ++ ": " ++ quoted text
  | emptyGrammar => "grammar has no productions"
  | unknownStart symbol => "start symbol " ++ quoted symbol ++ " has no productions"
  | malformedAutomaton line reason =>
    "malformed automaton at line " ++ toString line ++ ": " ++ reason
  | missingGoto state head => "no goto from state " ++ toString state ++ " on " ++ quoted head
  | stackUnderflow production =>
    "parser stack underflow reducing production " ++ toString production
  | unknownProduction production => "reduce by unknown production " ++ toString production

/-- Tells whether an error shows a parse table at odds with itself. -/
def isInternal : Error → Bool
  | missingGoto .. | stackUnderflow .. | unknownProduction .. => true
  | _ => false

end Error

end Frontend
