import Frontend.Automaton.Run
import Frontend.Fresh

/-!
# The subset construction

The states of the deterministic automaton are the sets of states that words can lead to. A
set is named by its members; a mark tells apart sets whose members spell the same name. Of
the tokens that the final members recognise, the one with the highest priority is kept.
-/

namespace Frontend.Automaton

/-- The sets of states that words can lead to, in breadth-first order. -/
def reachableSets (a : Automaton) : List (OrdSet String) :=
  explore
    (fun current => (a.alphabet.toList.map (a.step current)).filter fun next => !next.isEmpty)
    (subsetCount a.states.size) [a.startSet]

/-- The candidates for the name of a set: its members joined, then with marks at the end. -/
def setName (states : OrdSet String) (k : Nat) : String :=
  String.intercalate "_" states.toList ++ repeated k "'"

/-- Names for a list of sets, different from each other and from the `used` ones. -/
def nameSets (used : List String) : List (OrdSet String) → List (OrdSet String × String)
  | [] => []
  | states :: rest =>
    let name := fresh used (setName states)
    (states, name) :: nameSets (name :: used) rest

/-- The name that a set was given. -/
def nameOf (names : List (OrdSet String × String)) (states : OrdSet String) : String :=
  ((names.find? fun entry => decide (entry.1 = states)).map Prod.snd).getD ""

/-- Tells whether token `t` comes before token `u`: listed tokens in their order of priority,
then the others by name. -/
def tokenBefore (priority : List String) (t u : String) : Bool :=
  let i := priority.idxOf t
  let j := priority.idxOf u
  i < j || (i == j && t < u)

/-- The first of some tokens by priority. -/
def preferredToken (priority : List String) : List String → Option String
  | [] => none
  | t :: rest => some (rest.foldl (fun best u => if tokenBefore priority u best then u else best) t)

/-- The token that a set of states recognises. -/
def tokenOfSet (a : Automaton) (priority : List String) (states : OrdSet String) :
    Option String :=
  preferredToken priority ((a.finalsIn states).filterMap a.tokens.get?)

/-- A deterministic automaton that accepts the same words. -/
def determinize (a : Automaton) (priority : List String) : Automaton :=
  let names := nameSets [] a.reachableSets
  let finals := names.filter fun (states, _) => !(a.finalsIn states).isEmpty
  { states := OrdSet.ofList (names.map Prod.snd)
    alphabet := a.alphabet
    initial := nameOf names a.startSet
    finals := OrdSet.ofList (finals.map Prod.snd)
    transitions :=
      OrdMap.ofList <| names.flatMap fun (states, name) =>
        a.alphabet.toList.filterMap fun c =>
          let next := a.step states c
          if next.isEmpty then none
          else some (⟨name, .symbol c⟩, OrdSet.singleton (nameOf names next))
    tokens :=
      OrdMap.ofList <| finals.filterMap fun (states, name) =>
        (a.tokenOfSet priority states).map fun token => (name, token) }

end Frontend.Automaton
