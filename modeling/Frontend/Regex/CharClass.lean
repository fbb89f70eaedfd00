import Frontend.OrdSet
import Frontend.Regex.Token

/-!
# Character classes

A class lists literals and ranges of literals, and may list the empty word. It stands for
the alternatives among its members, the characters in order and the empty word last. Both
bounds of a range are upper case letters, lower case letters or digits.
-/

namespace Frontend.Regex

/-- The members of a class. -/
structure CharClass where
  chars : OrdSet Char
  hasEpsilon : Bool
  deriving DecidableEq

namespace CharClass

/-- The class without members. -/
def empty : CharClass := ⟨∅, false⟩

/-- Adds characters to a class. -/
def addChars (cs : List Char) (k : CharClass) : CharClass :=
  { k with chars := cs.foldl (fun s c => s.insert c) k.chars }

/-- Adds the empty word to a class. -/
def addEpsilon (k : CharClass) : CharClass := { k with hasEpsilon := true }

/-- The members of a class as tokens, in order. -/
def tokens (k : CharClass) : List Token :=
  k.chars.toList.map .literal ++ if k.hasEpsilon then [.op .epsilon] else []

end CharClass

/-- Tells whether two characters can bound a range together. -/
def sameKind (lo hi : Char) : Bool :=
  (lo.isUpper && hi.isUpper) || (lo.isLower && hi.isLower) || (lo.isDigit && hi.isDigit)

/-- The characters from `lo` to `hi`. -/
def charRange (lo hi : Char) : List Char :=
  (List.range (hi.toNat + 1 - lo.toNat)).map fun k => Char.ofNat (lo.toNat + k)

/-- The members among the tokens inside a class, where `prev` comes right before them and
`whole` is the class with its brackets. -/
def membersFrom (whole : List Token) (prev : Option Token) :
    List Token → Except Error CharClass
  | [] => .ok .empty
  | .literal c :: rest =>
    (membersFrom whole (some (.literal c)) rest).map (CharClass.addChars [c])
  | .op .epsilon :: rest =>
    (membersFrom whole (some (.op .epsilon)) rest).map CharClass.addEpsilon
  | .op .dash :: rest =>
    -- The bounds are members by themselves, so the range may take them in once more.
    match prev, rest.head? with
    | some (.literal lo), some (.literal hi) =>
      if sameKind lo hi && lo ≤ hi then
        (membersFrom whole (some (.op .dash)) rest).map (CharClass.addChars (charRange lo hi))
      else .error (.invalidRange (String.ofList ['[', lo, '-', hi, ']']))
    | _, _ => .error (.invalidRange (render whole))
  | .op _ :: _ => .error (.malformedExpression (render whole))

/-- The members of a class, given what it holds between its brackets. -/
def classMembers (inner : List Token) : Except Error CharClass :=
  let whole := .op .openBracket :: inner ++ [.op .closeBracket]
  if inner.isEmpty then .error (.malformedExpression (render whole))
  else membersFrom whole none inner

/-- Writes the members of a class as alternatives. -/
def CharClass.alternatives (k : CharClass) : List Token :=
  .op .openParen :: k.tokens.intersperse (.op .alt) ++ [.op .closeParen]

/-- Expands the classes in a list of tokens; `inner` holds, in reverse, what has been read of
a class that is not closed yet. -/
def expandFrom (inner : Option (List Token)) : List Token → Except Error (List Token)
  | [] =>
    match inner with
    | none => .ok []
    | some ts => .error (.malformedExpression (render (.op .openBracket :: ts.reverse)))
  | t :: rest =>
    match inner with
    | none =>
      if t = .op .openBracket then expandFrom (some []) rest
      else (expandFrom none rest).map (t :: ·)
    | some ts =>
      if t = .op .closeBracket then do
        let members ← classMembers ts.reverse
        let more ← expandFrom none rest
        return members.alternatives ++ more
      else expandFrom (some (t :: ts)) rest

/-- Writes every class as a group of alternatives. -/
def expandClasses (ts : List Token) : Except Error (List Token) := expandFrom none ts

end Frontend.Regex
