import Frontend.Regex.Token

/-!
# Operators and their operands

Outside classes, every operator must have what it applies to: a postfix operator and `|`
stand after an expression, no postfix operator follows another, no group is empty or ends in
`|`, and `-` has no meaning. What a class holds is left to its own rules.
-/

namespace Frontend.Regex

/-- Tells whether a postfix operator or `|` has no operand before it. -/
def isDangling (prev : Option Token) (o : Op) : Bool :=
  match prev with
  | none => true
  | some (.literal _) => false
  | some (.op p) => p == .openParen || p == .alt || (p.isPostfix && o.isPostfix)

/-- The sequence at fault, if a token cannot stand after `prev`. -/
def sequenceFault? (prev : Option Token) (t : Token) : Option (List Token) :=
  match t with
  | .literal _ => none
  | .op o =>
    if o.isPostfix || o == .alt then
      if isDangling prev o then some (prev.toList ++ [t]) else none
    else if o == .closeParen then
      if prev == some (.op .openParen) || prev == some (.op .alt) then some (prev.toList ++ [t])
      else none
    else if o == .dash then some [t]
    else none

/-- Checks the tokens after `prev`, which lie inside a class or not. -/
def checkFrom (prev : Option Token) (inClass : Bool) : List Token → Except Error Unit
  | [] =>
    if prev == some (.op .alt) then .error (.invalidOperatorSequence (render prev.toList))
    else .ok ()
  | t :: rest =>
    if inClass then checkFrom (some t) (t != .op .closeBracket) rest
    else
      match sequenceFault? prev t with
      | some ts => .error (.invalidOperatorSequence (render ts))
      | none => checkFrom (some t) (t == .op .openBracket) rest

/-- Checks that every operator outside classes has its operands. -/
def checkOperators (ts : List Token) : Except Error Unit := checkFrom none false ts

end Frontend.Regex
