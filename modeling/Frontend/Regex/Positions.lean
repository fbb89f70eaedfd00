import Frontend.OrdMap
import Frontend.Regex.Expr

/-!
# Positions that begin, end and follow

The words of an expression are sequences of positions. `Expr.first` and `Expr.last` are the
positions that a word can begin and end with, and `Tree.follow` lists for each position the
ones that can come right after it. One pass over an expression finds them all, from the
borders of the parts: `Expr.addFollow_fst` and `Expr.addNodes_eq` say that the passes carry
the right ones along.
-/

namespace Frontend.Regex

/-! ## Borders -/

/-- Where the words of an expression begin and end. -/
structure Borders where
  /-- Whether the empty word belongs to the expression. -/
  nullable : Bool
  first : OrdSet Nat
  last : OrdSet Nat
  deriving DecidableEq

namespace Borders

/-- The borders of one position. -/
def position (p : Nat) : Borders := ⟨false, OrdSet.singleton p, OrdSet.singleton p⟩

/-- The borders of the empty word. -/
def epsilon : Borders := ⟨true, ∅, ∅⟩

/-- The borders of repetitions. -/
def star (b : Borders) : Borders := { b with nullable := true }

/-- The borders of two parts in a row: one that can be empty lets the other show. -/
def concat (l r : Borders) : Borders where
  nullable := l.nullable && r.nullable
  first := if l.nullable then l.first ∪ r.first else l.first
  last := if r.nullable then l.last ∪ r.last else r.last

/-- The borders of alternatives. -/
def alt (l r : Borders) : Borders := ⟨l.nullable || r.nullable, l.first ∪ r.first, l.last ∪ r.last⟩

end Borders

namespace Expr

/-- The borders of an expression. -/
def borders : Expr → Borders
  | symbol p _ | marker p => .position p
  | epsilon => .epsilon
  | star e => e.borders.star
  | concat l r => l.borders.concat r.borders
  | alt l r => l.borders.alt r.borders

/-- Tells whether the empty word belongs to the expression. -/
def nullable (e : Expr) : Bool := e.borders.nullable

/-- The positions that a word can begin with. -/
def first (e : Expr) : OrdSet Nat := e.borders.first

/-- The positions that a word can end with. -/
def last (e : Expr) : OrdSet Nat := e.borders.last

end Expr

/-! ## Followers -/

/-- For each position, the positions that can come right after it. -/
abbrev FollowTable := OrdMap Nat (OrdSet Nat)

/-- Lets all of `qs` come right after each of `ps`. -/
def FollowTable.link (ps qs : OrdSet Nat) (t : FollowTable) : FollowTable :=
  ps.toList.foldl (fun t p => t.alter p fun old => old.getD ∅ ∪ qs) t

namespace Expr

/-- Adds the successions inside an expression to a table, and gives its borders. -/
def addFollow : Expr → FollowTable → Borders × FollowTable
  | symbol p _, t | marker p, t => (.position p, t)
  | epsilon, t => (.epsilon, t)
  | star e, t =>
    let (b, t) := e.addFollow t
    (b.star, t.link b.last b.first)
  | concat l r, t =>
    let (bl, t) := l.addFollow t
    let (br, t) := r.addFollow t
    (bl.concat br, t.link bl.last br.first)
  | alt l r, t =>
    let (bl, t) := l.addFollow t
    let (br, t) := r.addFollow t
    (bl.alt br, t)

theorem addFollow_fst (e : Expr) (t : FollowTable) : (e.addFollow t).1 = e.borders := by
  induction e generalizing t with
  | symbol p c => rfl
  | epsilon => rfl
  | marker p => rfl
  | star e ih =>
    show (e.addFollow t).1.star = _
    rw [ih, borders]
  | concat l r ihl ihr =>
    show (l.addFollow t).1.concat (r.addFollow (l.addFollow t).2).1 = _
    rw [ihl, ihr, borders]
  | alt l r ihl ihr =>
    show (l.addFollow t).1.alt (r.addFollow (l.addFollow t).2).1 = _
    rw [ihl, ihr, borders]

theorem addFollow_star (e : Expr) (t : FollowTable) :
    ((star e).addFollow t).2 = (e.addFollow t).2.link e.last e.first := by
  show (e.addFollow t).2.link (e.addFollow t).1.last (e.addFollow t).1.first = _
  rw [addFollow_fst, first, last]

theorem addFollow_concat (l r : Expr) (t : FollowTable) :
    ((concat l r).addFollow t).2 =
      (r.addFollow (l.addFollow t).2).2.link l.last r.first := by
  show (r.addFollow (l.addFollow t).2).2.link (l.addFollow t).1.last
    (r.addFollow (l.addFollow t).2).1.first = _
  rw [addFollow_fst, addFollow_fst, first, last]

end Expr

namespace Tree

/-- The positions that can come right after each position that is followed by any. -/
def follow (t : Tree) : FollowTable := (t.root.addFollow ∅).2

/-- The symbol at each position. -/
def symbolAt (t : Tree) : OrdMap Nat Char := OrdMap.ofList t.body.symbols

end Tree

/-! ## Numbered nodes -/

/-- A node of a tree whose nodes are numbered, children by their numbers. -/
inductive NodeKind where
  | symbol (position : Nat) (c : Char)
  | epsilon
  | marker (position : Nat)
  | star (child : Nat)
  | concat (left right : Nat)
  | alt (left right : Nat)
  deriving DecidableEq, Repr

/-- A numbered node with the borders of its expression. -/
structure Node where
  kind : NodeKind
  borders : Borders
  deriving DecidableEq

namespace Expr

/-- The nodes of an expression, children before parents, numbered from `n`. -/
def nodes (n : Nat) : Expr → List Node
  | symbol p c => [⟨.symbol p c, .position p⟩]
  | epsilon => [⟨.epsilon, .epsilon⟩]
  | marker p => [⟨.marker p, .position p⟩]
  | star e => e.nodes n ++ [⟨.star (n + e.size - 1), (star e).borders⟩]
  | concat l r =>
    l.nodes n ++ r.nodes (n + l.size) ++
      [⟨.concat (n + l.size - 1) (n + l.size + r.size - 1), (concat l r).borders⟩]
  | alt l r =>
    l.nodes n ++ r.nodes (n + l.size) ++
      [⟨.alt (n + l.size - 1) (n + l.size + r.size - 1), (alt l r).borders⟩]

/-- Puts the nodes of an expression in front of the `n` nodes before them, latest first; gives
the borders of the expression, and the number of nodes then. -/
def addNodes (n : Nat) (done : List Node) : Expr → Borders × Nat × List Node
  | symbol p c => (.position p, n + 1, ⟨.symbol p c, .position p⟩ :: done)
  | epsilon => (.epsilon, n + 1, ⟨.epsilon, .epsilon⟩ :: done)
  | marker p => (.position p, n + 1, ⟨.marker p, .position p⟩ :: done)
  | star e =>
    let (b, i, done) := e.addNodes n done
    (b.star, i + 1, ⟨.star (i - 1), b.star⟩ :: done)
  | concat l r =>
    let (bl, i, done) := l.addNodes n done
    let (br, j, done) := r.addNodes i done
    (bl.concat br, j + 1, ⟨.concat (i - 1) (j - 1), bl.concat br⟩ :: done)
  | alt l r =>
    let (bl, i, done) := l.addNodes n done
    let (br, j, done) := r.addNodes i done
    (bl.alt br, j + 1, ⟨.alt (i - 1) (j - 1), bl.alt br⟩ :: done)

theorem addNodes_eq (e : Expr) (n : Nat) (done : List Node) :
    e.addNodes n done = (e.borders, n + e.size, (e.nodes n).reverse ++ done) := by
  induction e generalizing n done with
  | symbol p c => rfl
  | epsilon => rfl
  | marker p => rfl
  | star e ih => simp [addNodes, ih, borders, size, nodes, Nat.add_assoc]
  | concat l r ihl ihr => simp [addNodes, ihl, ihr, borders, size, nodes, Nat.add_assoc]
  | alt l r ihl ihr => simp [addNodes, ihl, ihr, borders, size, nodes, Nat.add_assoc]

end Expr

namespace Tree

/-- The nodes of a tree, the mark and the root last. -/
def nodes (t : Tree) : List Node := (t.root.addNodes 0 []).2.2.reverse

theorem nodes_eq (t : Tree) : t.nodes = t.root.nodes 0 := by
  rw [nodes, Expr.addNodes_eq, List.append_nil, List.reverse_reverse]

end Tree

end Frontend.Regex
