import Frontend.Automaton.Basic
import Frontend.Explore

/-!
# Runs

A run keeps the set of all states that the word read so far can lead to, closed under the
moves that read nothing. The verdict names the token of the first final state, in the order
of names, that has one.
-/

namespace Frontend

/-- Whether a word is accepted, and the token that it is an instance of. -/
structure Verdict where
  accepted : Bool
  token : Option String
  deriving DecidableEq, Repr

namespace Automaton

/-- The states reachable from `states` by moves that read nothing. -/
def closure (a : Automaton) (states : List String) : OrdSet String :=
  OrdSet.ofList <|
    explore (fun s => (a.targets s .epsilon).toList) (states.length + a.transitionCount) states

/-- The states that reading `c` leads to from any of `current`. -/
def step (a : Automaton) (current : OrdSet String) (c : Char) : OrdSet String :=
  a.closure (OrdSet.unions (fun s => a.targets s (.symbol c)) current.toList).toList

/-- The states in which a run can start. -/
def startSet (a : Automaton) : OrdSet String := a.closure [a.initial]

/-- The states that a word can lead to. -/
def reached (a : Automaton) (word : List Char) : OrdSet String :=
  word.foldl a.step a.startSet

/-- The final states among the given ones, in order. -/
def finalsIn (a : Automaton) (states : OrdSet String) : List String :=
  states.toList.filter fun s => decide (s ∈ a.finals)

/-- The verdict on a word that can lead to the given states. -/
def verdict (a : Automaton) (states : OrdSet String) : Verdict :=
  let finals := a.finalsIn states
  ⟨!finals.isEmpty, finals.findSome? a.tokens.get?⟩

/-- Runs the automaton on a word. -/
def run (a : Automaton) (word : String) : Verdict := a.verdict (a.reached word.toList)

/-- Tells whether the automaton accepts a word. -/
def accepts (a : Automaton) (word : String) : Bool := (a.run word).accepted

end Automaton

end Frontend
