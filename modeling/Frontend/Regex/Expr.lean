import Frontend.Regex.Token

/-!
# Expressions

A regular expression as a tree. Each occurrence of a symbol has a position, counted from 1
in the order of writing, and the position after the last belongs to the mark that ends every
word. `Expr.postorder` writes an expression in postfix form and `Tree.ofPostfix` reads it.
-/

namespace Frontend.Regex

/-- A regular expression over occurrences of symbols. -/
inductive Expr where
  | symbol (position : Nat) (c : Char)
  | epsilon
  /-- The mark at the end of every word. -/
  | marker (position : Nat)
  | star (e : Expr)
  | concat (l r : Expr)
  | alt (l r : Expr)
  deriving DecidableEq, Repr

namespace Expr

/-- The number of nodes. -/
def size : Expr → Nat
  | symbol .. | epsilon | marker _ => 1
  | star e => e.size + 1
  | concat l r | alt l r => l.size + r.size + 1

/-- The occurrences of symbols, from left to right. -/
def symbols : Expr → List (Nat × Char)
  | symbol p c => [(p, c)]
  | epsilon | marker _ => []
  | star e => e.symbols
  | concat l r | alt l r => l.symbols ++ r.symbols

/-- The postfix form; the mark at the end of words is not written. -/
def postorder : Expr → List Token
  | symbol _ c => [.literal c]
  | epsilon => [.op .epsilon]
  | marker _ => []
  | star e => e.postorder ++ [.op .star]
  | concat l r => l.postorder ++ r.postorder ++ [.op .concat]
  | alt l r => l.postorder ++ r.postorder ++ [.op .alt]

end Expr

/-- An expression with the position of the mark after it. -/
structure Tree where
  body : Expr
  markerPosition : Nat
  deriving DecidableEq, Repr

namespace Tree

/-- The expression followed by the mark. -/
def root (t : Tree) : Expr := .concat t.body (.marker t.markerPosition)

/-- Reads tokens in postfix form onto a stack of expressions; `next` is the next position. -/
def build (stack : List Expr) (next : Nat) : List Token → Option (List Expr × Nat)
  | [] => some (stack, next)
  | .literal c :: rest => build (.symbol next c :: stack) (next + 1) rest
  | .op .epsilon :: rest => build (.epsilon :: stack) next rest
  | .op .star :: rest =>
    match stack with
    | e :: stack => build (.star e :: stack) next rest
    | [] => none
  | .op .concat :: rest =>
    match stack with
    | r :: l :: stack => build (.concat l r :: stack) next rest
    | _ => none
  | .op .alt :: rest =>
    match stack with
    | r :: l :: stack => build (.alt l r :: stack) next rest
    | _ => none
  | .op _ :: _ => none

/-- Reads the postfix form of one expression. -/
def ofPostfix (ts : List Token) : Except Error Tree :=
  match build [] 1 ts with
  | some ([e], next) => .ok ⟨e, next⟩
  | _ => .error (.malformedExpression (render ts))

end Tree

end Frontend.Regex
