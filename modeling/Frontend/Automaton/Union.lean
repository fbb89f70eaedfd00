import Frontend.Automaton.Basic
import Frontend.Fresh

/-!
# Unions

The union of two automata has a fresh initial state that moves to both of theirs without
reading. The states of the second automaton are renamed where the first has a state of the
same name, so no state of one is mixed up with a state of the other.
-/

namespace Frontend.Automaton

/-- New names for a list of states: a state that occurs in `own` takes its first name, with
a mark put in front once or more, that is not in `taken`; any other keeps its name. -/
def separateNames (own : OrdSet String) : List String → List String → List (String × String)
  | _, [] => []
  | taken, s :: rest =>
    if s ∈ own then
      let name := fresh taken fun k => repeated k "af2-" ++ s
      (s, name) :: separateNames own (name :: taken) rest
    else (s, s) :: separateNames own taken rest

/-- The candidates for the name of the initial state of a union. -/
def initialCandidate : Nat → String
  | 0 => "qi"
  | k + 1 => "qi" ++ toString (k + 1)

/-- An automaton that accepts what `a` or `b` accepts. -/
def union (a b : Automaton) : Automaton :=
  let states := a.states.toList ++ b.states.toList
  let names := separateNames a.states states b.states.toList
  let nameMap := OrdMap.ofList names
  let rename := fun s => nameMap.getD s s
  -- The names of both automata are taken, those before the renaming included.
  let initial := fresh (names.map Prod.snd ++ states) initialCandidate
  let both : Automaton :=
    { states := OrdSet.singleton initial ∪ a.states ∪ b.states.map rename
      alphabet := a.alphabet ∪ b.alphabet
      initial := initial
      finals := a.finals ∪ b.finals.map rename
      transitions :=
        b.transitions.toList.foldl
          (fun all (move, targets) =>
            all.alter ⟨rename move.source, move.label⟩ fun old =>
              old.getD ∅ ∪ targets.map rename)
          a.transitions
      tokens :=
        b.tokens.toList.foldl (fun all (s, token) => all.insert (rename s) token) a.tokens }
  (both.addTransition initial .epsilon a.initial).addTransition initial .epsilon
    (rename b.initial)

/-- The union of a list of automata, formed from the left; an empty list has none. -/
def unionAll? : List Automaton → Option Automaton
  | [] => none
  | a :: rest => some (rest.foldl union a)

end Frontend.Automaton
