import Frontend.Regex.Token

/-!
# Postfix form

Concatenation is made explicit between a token that can end an expression and one that can
begin one. Then the operators are moved behind their operands: an operator waits on a stack
until one that binds no tighter comes, or the group that it stands in is closed.
-/

namespace Frontend.Regex

/-- Makes concatenation explicit. -/
def insertConcat : List Token → List Token
  | [] => []
  | [t] => [t]
  | t :: u :: rest =>
    if t.endsOperand && u.startsOperand then t :: .op .concat :: insertConcat (u :: rest)
    else t :: insertConcat (u :: rest)

/-- Tells whether a waiting operator goes out before `o` is put on the stack. -/
def yields (o top : Op) : Bool := top != .openParen && o.precedence ≤ top.precedence

/-- The postfix form of the tokens that follow, with the operators that wait. -/
def postfixFrom : List Op → List Token → List Token
  | waiting, [] => (waiting.filter (· != .openParen)).map .op
  | waiting, .literal c :: rest => .literal c :: postfixFrom waiting rest
  | waiting, .op .epsilon :: rest => .op .epsilon :: postfixFrom waiting rest
  | waiting, .op .openParen :: rest => postfixFrom (.openParen :: waiting) rest
  | waiting, .op .closeParen :: rest =>
    (waiting.takeWhile (· != .openParen)).map .op ++
      postfixFrom (waiting.dropWhile (· != .openParen)).tail rest
  | waiting, .op o :: rest =>
    (waiting.takeWhile (yields o)).map .op ++
      postfixFrom (o :: waiting.dropWhile (yields o)) rest

/-- The postfix form of a list of tokens; parentheses do not occur in it. -/
def toPostfix (ts : List Token) : List Token := postfixFrom [] ts

end Frontend.Regex
