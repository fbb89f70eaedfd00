import Frontend.Error
import Frontend.Text.Blank

/-!
# Tokens of a pattern

A pattern is a sequence of literal characters and operators. Blank characters say nothing,
`\c` is always the literal `c`, and an unescaped `.` says nothing either, since it would
only make concatenation explicit. `render` writes tokens as a pattern again.
-/

namespace Frontend.Regex

/-- The operators of patterns. Concatenation is not written in a pattern. -/
inductive Op where
  | openParen
  | closeParen
  | openBracket
  | closeBracket
  | star
  | plus
  | question
  | alt
  | dash
  | epsilon
  | concat
  deriving DecidableEq, Repr

namespace Op

/-- The character that stands for an operator. -/
def toChar : Op → Char
  | openParen => '('
  | closeParen => ')'
  | openBracket => '['
  | closeBracket => ']'
  | star => '*'
  | plus => '+'
  | question => '?'
  | alt => '|'
  | dash => '-'
  | epsilon => '&'
  | concat => '.'

/-- The operators that a pattern can hold. -/
def written : List Op :=
  [openParen, closeParen, openBracket, closeBracket, star, plus, question, alt, dash, epsilon]

/-- The operator that a character of a pattern stands for. -/
def ofChar? (c : Char) : Option Op := written.find? fun op => op.toChar == c

/-- The operators that stand after their operand. -/
def isPostfix : Op → Bool
  | star | plus | question => true
  | _ => false

/-- How tightly an operator binds. -/
def precedence : Op → Nat
  | star => 2
  | concat => 1
  | _ => 0

end Op

/-- A unit of a pattern. -/
inductive Token where
  | literal (c : Char)
  | op (o : Op)
  deriving DecidableEq, Repr

namespace Token

/-- The token that an unescaped character stands for. -/
def ofChar (c : Char) : Token :=
  match Op.ofChar? c with
  | some o => op o
  | none => literal c

/-- Tells whether a token is an expression by itself: a literal or the empty word. -/
def isOperand : Token → Bool
  | literal _ | op .epsilon => true
  | _ => false

/-- Tells whether an expression can end in a token. -/
def endsOperand (t : Token) : Bool :=
  t.isOperand || t == op .star || t == op .closeParen || t == op .closeBracket

/-- Tells whether an expression can begin with a token. -/
def startsOperand (t : Token) : Bool :=
  t.isOperand || t == op .openParen || t == op .openBracket

/-- Writes a token; a literal that would be read as something else is escaped. -/
def render : Token → List Char
  | literal c =>
    if (Op.ofChar? c).isSome || c == '\\' || c == '.' then ['\\', c] else [c]
  | op o => [o.toChar]

end Token

/-- Writes tokens as a pattern. -/
def renderChars (ts : List Token) : List Char := ts.flatMap Token.render

/-- Writes tokens as a pattern. -/
def render (ts : List Token) : String := String.ofList (renderChars ts)

/-- Splits a pattern without blank characters into tokens; fails on an escape of nothing. -/
def split? : List Char → Option (List Token)
  | [] => some []
  | ['\\'] => none
  | '\\' :: c :: rest => (split? rest).map (.literal c :: ·)
  | '.' :: rest => split? rest
  | c :: rest => (split? rest).map (.ofChar c :: ·)

/-- Tells whether parentheses and brackets nest, where the operators in `opened` are still
to be closed, the latest first. -/
def nests : List Op → List Token → Bool
  | opened, [] => opened.isEmpty
  | opened, .op .openParen :: rest => nests (.openParen :: opened) rest
  | opened, .op .openBracket :: rest => nests (.openBracket :: opened) rest
  | .openParen :: opened, .op .closeParen :: rest => nests opened rest
  | .openBracket :: opened, .op .closeBracket :: rest => nests opened rest
  | _, .op .closeParen :: _ => false
  | _, .op .closeBracket :: _ => false
  | opened, _ :: rest => nests opened rest

/-- The tokens of a pattern; it has some, and its brackets nest. -/
def tokenize (pattern : String) : Except Error (List Token) :=
  match split? (pattern.toList.filter fun c => !Text.isBlank c) with
  | some ts =>
    if nests [] ts && !ts.isEmpty then .ok ts else .error (.malformedExpression pattern)
  | none => .error (.malformedExpression pattern)

end Frontend.Regex
