import Frontend.Automaton.Canonical
import Frontend.Automaton.Determinize
import Frontend.Automaton.Union
import Frontend.Lexer.Definitions
import Frontend.Lexer.Lexeme
import Frontend.Regex.Compile

/-!
# Lexers

A lexer is a deterministic automaton for all tokens of a list of definitions together. A
word that several tokens match is an instance of the one defined first.
-/

namespace Frontend

/-- The automaton of each definition, in order. -/
def Definitions.automata (ds : Definitions) : Except Error (List Automaton) :=
  ds.tokens.mapM fun name => do
    let pattern ← ds.expand name
    Regex.toAutomaton pattern name

/-- An automaton that tells which token a word is an instance of. -/
structure Lexer where
  automaton : Automaton
  deriving DecidableEq

namespace Lexer

/-- The lexer of a list of definitions; it needs at least one. -/
def ofDefinitions (ds : Definitions) : Except Error Lexer := do
  match Automaton.unionAll? (← ds.automata) with
  | none => .error (.malformedExpression "")
  | some all => return ⟨(all.determinize ds.tokens).canonical⟩

/-- Classifies a word, blank characters around it aside. -/
def classify (lexer : Lexer) (word : List Char) : Lexeme :=
  let word := String.ofList (Text.trim word)
  let verdict := lexer.automaton.run word
  ⟨word, if verdict.accepted then verdict.token else none⟩

/-- Classifies the words of a list, leaving out the blank ones. -/
def scan (lexer : Lexer) (words : List (List Char)) : List Lexeme :=
  (words.filter fun word => !Text.isBlankText word).map lexer.classify

end Lexer

end Frontend
