import Frontend.Text.Lines
import Frontend.Text.Quoted

/-!
# Lexemes

A lexeme is a word with the token that it is an instance of, if any. A stream of lexemes is
written one to a line, as `<word,token>`. Neither part is escaped: the token is what stands
after the last comma, and a mark takes the place of a token that is missing.
-/

namespace Frontend

/-- A classified word. -/
structure Lexeme where
  word : String
  /-- The token that the word is an instance of. -/
  token : Option String
  deriving DecidableEq, Repr

namespace Lexeme

/-- What is written for the token of a word that has none. -/
def noToken : String := "erro!"

/-- The token as it is written. -/
def tokenText (l : Lexeme) : String := l.token.getD noToken

/-- The written form of a lexeme. -/
def render (l : Lexeme) : String := "<" ++ l.word ++ "," ++ l.tokenText ++ ">"

/-- Reads the written form of a lexeme, blank characters around it aside. -/
def ofLine? (line : List Char) : Option Lexeme := do
  let inner ← Text.stripLast? '>' (← Text.stripFirst? '<' (Text.trim line))
  let (word, token) ← Text.cutLast? ',' inner
  let token := String.ofList token
  return ⟨String.ofList word, if token = noToken then none else some token⟩

/-- Writes a stream of lexemes. -/
def renderAll (ls : List Lexeme) : String := Text.unlines (ls.map render)

end Lexeme

/-- A line of a lexeme stream that is no lexeme. -/
structure BadLexemeLine where
  line : Nat
  text : String
  deriving DecidableEq, Repr

/-- What a bad line of a lexeme stream says to the user. -/
def BadLexemeLine.message (e : BadLexemeLine) : String :=
  "line " ++ toString e.line ++ ": expected <word,token>, found " ++ Text.quoted e.text

/-- Reads a stream of lexemes, skipping blank lines. -/
def Lexeme.readAll (text : String) : Except BadLexemeLine (List Lexeme) :=
  ((Text.numberedLines text.toList).filter fun (_, line) => !Text.isBlankText line).mapM
    fun (n, line) =>
      match Lexeme.ofLine? line with
      | some lexeme => .ok lexeme
      | none => .error ⟨n, String.ofList line⟩

/-- The tokens of a stream of lexemes; a word without one keeps the mark that says so. -/
def tokenColumn (text : String) : Except BadLexemeLine (List String) :=
  (Lexeme.readAll text).map fun ls => ls.map Lexeme.tokenText

end Frontend
