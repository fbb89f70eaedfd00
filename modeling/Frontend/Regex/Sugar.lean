import Frontend.Regex.Token

/-!
# Optional and repeated expressions

`e?` stands for `(e|&)` and `e+` for `(e e*)`. The expression `e` is the literal, group or
class right before the operator, with the stars on it. What has been written so far is kept
with the latest token first, so the operand is found at its front.
-/

namespace Frontend.Regex

/-- Splits reversed tokens after the bracket that opens the group they begin with: `depth`
groups are entered and not left yet. -/
def splitGroup? (opening closing : Token) : Nat → List Token → Option (List Token × List Token)
  | _, [] => none
  | depth, t :: rest =>
    if t = closing then
      (splitGroup? opening closing (depth + 1) rest).map fun (group, more) => (t :: group, more)
    else if t = opening then
      if depth = 1 then some ([t], rest)
      else
        (splitGroup? opening closing (depth - 1) rest).map fun (group, more) =>
          (t :: group, more)
    else (splitGroup? opening closing depth rest).map fun (group, more) => (t :: group, more)

/-- Splits reversed tokens into the operand that they begin with and the rest. -/
def splitOperand? (ts : List Token) : Option (List Token × List Token) :=
  let stars := ts.takeWhile (· == .op .star)
  match ts.dropWhile (· == .op .star) with
  | [] => none
  | t :: rest =>
    if t = .op .closeParen then
      (splitGroup? (.op .openParen) (.op .closeParen) 0 (t :: rest)).map
        fun (group, more) => (stars ++ group, more)
    else if t = .op .closeBracket then
      (splitGroup? (.op .openBracket) (.op .closeBracket) 0 (t :: rest)).map
        fun (group, more) => (stars ++ group, more)
    else if t.isOperand then some (stars ++ [t], rest)
    else none

/-- Replaces the operators in the tokens after those that `out` holds in reverse. -/
def desugarFrom (out : List Token) (inClass : Bool) : List Token → Except Error (List Token)
  | [] => .ok out.reverse
  | t :: rest =>
    if !inClass && (t == .op .question || t == .op .plus) then
      match splitOperand? out with
      | none => .error (.invalidOperatorSequence (render [t]))
      | some (operand, before) =>
        -- Like all that has been written, the replacement is in reverse.
        let body :=
          if t = .op .question then .op .epsilon :: .op .alt :: operand
          else .op .star :: operand ++ operand
        desugarFrom (.op .closeParen :: body ++ .op .openParen :: before) inClass rest
    else
      let inClass := if t = .op .openBracket then true
        else if t = .op .closeBracket then false else inClass
      desugarFrom (t :: out) inClass rest

/-- Replaces `?` and `+` outside classes by what they stand for. -/
def desugar (ts : List Token) : Except Error (List Token) := desugarFrom [] false ts

end Frontend.Regex
