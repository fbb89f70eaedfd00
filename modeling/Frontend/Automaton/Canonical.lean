import Frontend.Automaton.Run

/-!
# Renaming and canonical names

Renaming puts new names in place of all state names. The canonical names are `q0`, `q1`, …
in breadth-first order from the initial state, the states that cannot be reached coming
last; so automata that differ in names alone become equal.
-/

namespace Frontend.Automaton

/-- Renames every state. Where two moves or two tokens fall together, the later counts. -/
def rename (a : Automaton) (f : String → String) : Automaton where
  states := a.states.map f
  alphabet := a.alphabet
  initial := f a.initial
  finals := a.finals.map f
  transitions :=
    OrdMap.ofList <| a.transitions.toList.map fun (move, targets) =>
      (⟨f move.source, move.label⟩, targets.map f)
  tokens := OrdMap.ofList <| a.tokens.toList.map fun (s, token) => (f s, token)

/-- The labels that a move can have, in order. -/
def labels (a : Automaton) : List Label := .epsilon :: a.alphabet.toList.map .symbol

/-- The states that one move of `state` leads to, by label and then by name. -/
def successors (a : Automaton) (state : String) : List String :=
  a.labels.flatMap fun label => (a.targets state label).toList

/-- The states in breadth-first order from the initial state, those out of reach last. -/
def canonicalOrder (a : Automaton) : List String :=
  let reachable := explore a.successors (1 + a.transitionCount) [a.initial]
  reachable ++ a.states.toList.filter fun s => decide (s ∉ reachable)

/-- Names the states `q0`, `q1`, … in canonical order. -/
def canonical (a : Automaton) : Automaton :=
  let order := a.canonicalOrder
  a.rename fun s => "q" ++ toString (order.idxOf s)

end Frontend.Automaton
