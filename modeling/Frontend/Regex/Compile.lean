import Frontend.Automaton.Basic
import Frontend.Explore
import Frontend.Regex.CharClass
import Frontend.Regex.Operators
import Frontend.Regex.Positions
import Frontend.Regex.Postfix
import Frontend.Regex.Sugar

/-!
# From patterns to deterministic automata

A pattern is brought into postfix form and read as a tree. The states of its automaton are
sets of positions: those that can come next. A state is final if the mark at the end of
words can come next.
-/

namespace Frontend.Regex

/-- Reads a pattern. -/
def compile (pattern : String) : Except Error Tree := do
  let ts ← tokenize pattern
  checkOperators ts
  let ts ← desugar ts
  let ts ← expandClasses ts
  Tree.ofPostfix (toPostfix (insertConcat ts))

namespace Tree

/-- The characters of an expression. -/
def alphabet (t : Tree) : OrdSet Char := OrdSet.ofList t.symbolAt.values

/-- The positions that can come next after `c` has been read at one of `here`. -/
def next (follow : FollowTable) (symbolAt : OrdMap Nat Char) (here : OrdSet Nat) (c : Char) :
    OrdSet Nat :=
  OrdSet.unions (fun p => follow.getD p ∅) <|
    here.toList.filter fun p => symbolAt.get? p == some c

/-- The sets of positions that can come next after some word, in breadth-first order. -/
def positionSets (t : Tree) : List (OrdSet Nat) :=
  let follow := t.follow
  let symbolAt := t.symbolAt
  let alphabet := t.alphabet.toList
  explore (fun here => (alphabet.map (next follow symbolAt here)).filter fun ps => !ps.isEmpty)
    (subsetCount t.markerPosition) [t.root.first]

/-- The name of a set of positions. -/
def setName (ps : OrdSet Nat) : String := String.intercalate "." (ps.toList.map toString)

/-- The deterministic automaton of an expression; its final states recognise `token`. -/
def toAutomaton (t : Tree) (token : String) : Automaton :=
  let follow := t.follow
  let symbolAt := t.symbolAt
  let alphabet := t.alphabet
  let sets := t.positionSets
  let finals := (sets.filter fun ps => decide (t.markerPosition ∈ ps)).map setName
  { states := OrdSet.ofList (sets.map setName)
    alphabet := alphabet
    initial := setName t.root.first
    finals := OrdSet.ofList finals
    transitions :=
      OrdMap.ofList <| sets.flatMap fun here =>
        alphabet.toList.filterMap fun c =>
          let there := next follow symbolAt here c
          if there.isEmpty then none
          else some (⟨setName here, .symbol c⟩, OrdSet.singleton (setName there))
    tokens := OrdMap.ofList (finals.map fun s => (s, token)) }

end Tree

/-- The automaton of a pattern. -/
def toAutomaton (pattern token : String) : Except Error Automaton :=
  (compile pattern).map fun t => t.toAutomaton token

end Frontend.Regex
