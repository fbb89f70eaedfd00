import Frontend.Text.Blank

/-!
# Lines and fields

A line ends at a line feed, and a carriage return right before that belongs to the end of
the line. The last line may lack its end; a text that ends in a line feed has no empty line
after it. Fields are what stands between separators.
-/

namespace Frontend.Text

/-- The lines of a text, without their ends. -/
def lines : List Char → List (List Char)
  | [] => []
  | '\n' :: rest => [] :: lines rest
  | '\r' :: '\n' :: rest => [] :: lines rest
  | c :: rest =>
    match lines rest with
    | [] => [[c]]
    | line :: more => (c :: line) :: more

/-- Numbers the elements of a list from `n`. -/
def numberFrom (n : Nat) : List α → List (Nat × α)
  | [] => []
  | a :: rest => (n, a) :: numberFrom (n + 1) rest

/-- The lines of a text with their numbers, the first being line 1. -/
def numberedLines (text : List Char) : List (Nat × List Char) := numberFrom 1 (lines text)

/-- The fields of a text between occurrences of `sep`: one more than there are separators. -/
def fields (sep : Char) : List Char → List (List Char)
  | [] => [[]]
  | c :: rest =>
    if c = sep then [] :: fields sep rest
    else
      match fields sep rest with
      | [] => [[c]]
      | field :: more => (c :: field) :: more

/-- Cuts a text at the first `sep`: what stands before it and what stands after it. -/
def cutFirst? (sep : Char) : List Char → Option (List Char × List Char)
  | [] => none
  | c :: rest =>
    if c = sep then some ([], rest)
    else (cutFirst? sep rest).map fun (before, after) => (c :: before, after)

/-- Cuts a text at the last `sep`. -/
def cutLast? (sep : Char) : List Char → Option (List Char × List Char)
  | [] => none
  | c :: rest =>
    match cutLast? sep rest with
    | some (before, after) => some (c :: before, after)
    | none => if c = sep then some ([], rest) else none

/-- Takes a character off the front of a text. -/
def stripFirst? (c : Char) : List Char → Option (List Char)
  | [] => none
  | d :: rest => if d = c then some rest else none

/-- Takes a character off the end of a text. -/
def stripLast? (c : Char) (text : List Char) : Option (List Char) :=
  (stripFirst? c text.reverse).map List.reverse

/-- Ends every line with a line feed. -/
def unlines (ls : List String) : String := String.join (ls.map (· ++ "\n"))

end Frontend.Text
