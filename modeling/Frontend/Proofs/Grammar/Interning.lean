import Frontend.Grammar.Reader
import Mathlib.Data.List.Basic

/-!
# What is read does not depend on the symbol table

The lines of a grammar share a table that numbers their symbols. The number that a name is given
stands for it (`name?_add`), and the table only grows (`prefix_internTokens`), so the number stands
for the name from then on (`nameOf_add`). Rules are read from numbers in the same way as from names
(`readRule?_map`), so a line is read as if its symbols were given by name (`readLine_eq`), and it
does not matter which symbols have come before (`readLines_table`). The inductions are those of the
functions that read.
-/

namespace Frontend

namespace SymbolTable

variable {t u : SymbolTable} {name : String} {n : Nat}

theorem prefix_add (t : SymbolTable) (name : String) : t.toList <+: (t.add name).1.toList := by
  unfold add
  split
  · exact List.prefix_rfl
  · exact List.prefix_append _ _

/-- A number stands for the same name in a table that goes on from this one. -/
theorem name?_mono (h : t.toList <+: u.toList) (hname : t.name? n = some name) :
    u.name? n = some name := by
  obtain ⟨more, hmore⟩ := h
  obtain ⟨hlt, -⟩ := List.getElem?_eq_some_iff.1 hname
  rw [name?, ← hmore, List.getElem?_append_left hlt]
  exact hname

/-- The number of a name stands for it. -/
theorem name?_add (t : SymbolTable) (name : String) :
    (t.add name).1.name? (t.add name).2 = some name := by
  unfold add
  split
  · next hmem => exact List.getElem?_idxOf hmem
  · exact List.getElem?_concat_length

theorem nameOf_add (h : (t.add name).1.toList <+: u.toList) :
    u.nameOf (t.add name).2 = name := by
  rw [nameOf, name?_mono h (t.name?_add name), Option.getD_some]

end SymbolTable

namespace Grammar

variable {α β : Type} {table u : SymbolTable} {ts : List (LineToken String)}

/-! ## Numbers and names -/

/-- Puts `f` of the symbol in its place. -/
def LineToken.map (f : α → β) : LineToken α → LineToken β
  | .symbol s => .symbol (f s)
  | .derives => .derives
  | .alt => .alt

theorem prefix_internTokens (table : SymbolTable) (ts : List (LineToken String)) :
    table.toList <+: (internTokens table ts).1.toList := by
  induction ts generalizing table with
  | nil => exact List.prefix_rfl
  | cons token ts ih =>
    cases token with
    | symbol name => exact (table.prefix_add name).trans (ih _)
    | derives => exact ih table
    | alt => exact ih table

/-- The numbers of a line stand for its symbols. -/
theorem map_nameOf_internTokens (h : (internTokens table ts).1.toList <+: u.toList) :
    (internTokens table ts).2.map (.map u.nameOf) = ts := by
  induction ts generalizing table with
  | nil => rfl
  | cons token ts ih =>
    cases token with
    | symbol name =>
      have hname := SymbolTable.nameOf_add ((prefix_internTokens (table.add name).1 ts).trans h)
      exact congr (congrArg (fun s => List.cons (LineToken.symbol s)) hname) (ih h)
    | derives => exact congrArg (List.cons .derives) (ih h)
    | alt => exact congrArg (List.cons .alt) (ih h)

/-! ## Reading -/

theorem readBodies?_map (f : α → β) (ts : List (LineToken α)) :
    readBodies? (ts.map (.map f)) = (readBodies? ts).map (List.map (List.map f)) := by
  fun_induction readBodies? ts with
  | case1 => rfl
  | case2 rest ih =>
    show (readBodies? (rest.map _)).map _ = _
    rw [ih, Option.map_map, Option.map_map]
    rfl
  | case3 s rest body more hrest ih =>
    rw [hrest] at ih
    rw [List.map_cons, LineToken.map, readBodies?, ih]
    rfl
  | case4 s rest hrest ih =>
    rw [List.map_cons, LineToken.map, readBodies?, ih]
    cases hbodies : readBodies? rest with
    | none => rfl
    | some bodies =>
      cases bodies with
      | nil => rfl
      | cons body more => exact absurd hbodies (hrest body more)
  | case5 rest => rfl

/-- A rule is read in the same way whatever stands for its symbols. -/
theorem readRule?_map (f : α → β) (ts : List (LineToken α)) :
    readRule? (ts.map (.map f)) = (readRule? ts).map (Prod.map f (List.map (List.map f))) := by
  -- Only a symbol with the mark behind it is read on.
  rcases ts with _ | ⟨_ | _ | _, _ | ⟨_ | _ | _, rest⟩⟩
  case cons.symbol.cons.derives =>
    show (readBodies? (rest.map _)).map _ = _
    rw [readBodies?_map, readRule?, Option.map_map, Option.map_map]
    rfl
  all_goals rfl

theorem readRule?_internTokens (table : SymbolTable) (ts : List (LineToken String)) :
    (readRule? (internTokens table ts).2).map (nameRule (internTokens table ts).1) =
      readRule? ts := by
  have hread := readRule?_map (internTokens table ts).1.nameOf (internTokens table ts).2
  rw [map_nameOf_internTokens List.prefix_rfl] at hread
  exact hread.symm

/-- What a line is read as if its symbols are given by name. -/
def content? (line : List Char) : Option (Option (String × List Body)) :=
  match scanLine line with
  | [] => some none
  | tokens => ((readRule? tokens).bind checkRule?).map some

/-- **A line is read as if its symbols were given by name.** -/
theorem readLine_eq (table : SymbolTable) (line : List Char) :
    readLine table line = ((internTokens table (scanLine line)).1, content? line) := by
  unfold readLine content?
  cases scanLine line with
  | nil => rfl
  | cons token ts =>
    have hrule := readRule?_internTokens table (token :: ts)
    have hcons : ∃ token' ts', (internTokens table (token :: ts)).2 = token' :: ts' := by
      cases token <;> exact ⟨_, _, rfl⟩
    obtain ⟨token', ts', hts⟩ := hcons
    rcases hinterned : internTokens table (token :: ts) with ⟨table', tokens⟩
    rw [hinterned] at hrule hts
    obtain rfl : tokens = token' :: ts' := hts
    exact congrArg (fun rule => (table', (Option.bind rule checkRule?).map some)) hrule

/-- What the lines are read as does not depend on the symbols that have come before. -/
theorem readLines_table (start : Option String) (rules : Rules) (table table' : SymbolTable)
    (lines : List (Nat × List Char)) :
    readLines start rules table lines = readLines start rules table' lines := by
  induction lines generalizing start rules table table' with
  | nil => rfl
  | cons line lines ih =>
    obtain ⟨n, line⟩ := line
    rw [readLines, readLines, readLine_eq, readLine_eq]
    rcases content? line with _ | _ | ⟨head, bodies⟩
    · rfl
    · exact ih _ _ _ _
    · exact ih _ _ _ _

/-- The first line counts for what it is read as. -/
theorem readLines_cons (start : Option String) (rules : Rules) (table : SymbolTable) (n : Nat)
    (line : List Char) (rest : List (Nat × List Char)) :
    readLines start rules table ((n, line) :: rest) =
      match content? line with
      | none => .error (.malformedRule n (String.ofList (Text.trim line)))
      | some none => readLines start rules table rest
      | some (some (head, bodies)) =>
        readLines (some (start.getD head)) (rules.add head bodies) table rest := by
  rw [readLines, readLine_eq]
  rcases content? line with _ | _ | ⟨head, bodies⟩
  · rfl
  · exact readLines_table _ _ _ _ _
  · exact readLines_table _ _ _ _ _

end Grammar

end Frontend
