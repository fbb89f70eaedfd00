import Frontend.Order
import Frontend.Text.Lines

/-!
# Locations and paths

A location is where a file or a directory is: the names that lead to it from the root. A
path is a text that leads to a location: its steps stand between slashes, `.` and an empty
step stay where they are, and `..` goes up. Names and paths have a limited length.
-/

namespace Frontend

/-- The names that lead from the root to a file or a directory. -/
structure Location where
  names : List String
  deriving DecidableEq, Repr

namespace Location

/-! ## The order of locations -/

/-- Locations compare by their first different names. -/
instance : LT Location := ⟨fun l m => List.Lex (· < ·) l.names m.names⟩

instance : DecidableLT Location := fun l m => List.decidableLex (· < ·) l.names m.names

instance : StrictTotal Location where
  lt_irrefl l := List.lex_irrefl StrictTotal.lt_irrefl l.names
  lt_trans := List.lex_trans StrictTotal.lt_trans
  lt_trichotomy l m := by
    by_cases hlt : l < m
    · exact .inl hlt
    by_cases hgt : m < l
    · exact .inr (.inr hgt)
    have heq : l.names = m.names := List.lex_trichotomous
      (fun _ _ hxy hyx => Classical.byContradiction fun hne =>
        hyx (StrictTotal.lt_of_not_lt_of_ne hxy hne)) hgt hlt
    exact .inr (.inl (congrArg mk heq))

/-! ## Moving about -/

/-- Where no name leads. -/
def root : Location := ⟨[]⟩

/-- The location of a name in a directory. -/
def child (l : Location) (name : String) : Location := ⟨l.names ++ [name]⟩

/-- The directory that holds a location; above the root there is the root again. -/
def parent (l : Location) : Location := ⟨l.names.dropLast⟩

theorem parent_child (l : Location) (name : String) : (l.child name).parent = l := by
  rw [child, parent, List.dropLast_concat]

/-- The path that leads down from one location to another, unless that is not below it. -/
def pathTo? (l below : Location) : Option String :=
  if l.names.isPrefixOf below.names && l.names.length < below.names.length then
    some (String.intercalate "/" (below.names.drop l.names.length))
  else none

end Location

/-! ## Paths -/

/-- A step along a path. -/
inductive PathStep where
  | stay
  | up
  | into (name : String)
  deriving DecidableEq, Repr

namespace PathStep

/-- The step that a text between slashes stands for. -/
def ofText : List Char → PathStep
  | [] | ['.'] => stay
  | ['.', '.'] => up
  | name => into (String.ofList name)

/-- The number of bytes that a name has at most. -/
def nameLimit : Nat := 255

/-- Tells whether a step keeps the limit of names. -/
def fits : PathStep → Bool
  | stay | up => true
  | into name => name.utf8ByteSize ≤ nameLimit

end PathStep

/-- The steps of a path, and whether they begin at the root. -/
structure Path where
  fromRoot : Bool
  steps : List PathStep
  deriving DecidableEq, Repr

namespace Path

/-- The number of bytes that the text of a path has at most. -/
def lengthLimit : Nat := 4095

/-- Reads a path. It is not empty, has no null character, and keeps the limits. -/
def ofText? (text : String) : Option Path :=
  let steps := (Text.fields '/' text.toList).map PathStep.ofText
  if text.toList.isEmpty || text.toList.contains '\x00' then none
  else if text.utf8ByteSize ≤ lengthLimit && steps.all PathStep.fits then
    some ⟨text.toList.head? == some '/', steps⟩
  else none

end Path

end Frontend
