import Frontend.Text.Lines

/-!
# Reading comma-separated text

The usual rules, apart from how such text is written: a record ends at a line feed, its fields are
set apart by commas, and a field can be put between quotes, where commas and line feeds belong to
it and a quote is written twice. A reader goes through the text from the left (`Reading.step`). It
reads a field that holds no character with a meaning as it stands (`run_plain`), and what is quoted
up to the quotes around it (`run_quoted`).
-/

namespace Frontend.Text

/-- Where in a field a reader is. -/
inductive FieldPlace where
  | start
  /-- In a field without quotes around it. -/
  | plain
  | quoted
  /-- Behind a quote in a quoted field, which ends the field unless a second quote follows. -/
  | closing
  deriving DecidableEq, Repr

/-- What a reader has come to: the records that have ended and the fields before the open one in
its record, the latest first, and the open field in reverse. -/
structure Reading where
  records : List (List String)
  fields : List String
  field : List Char
  place : FieldPlace
  deriving DecidableEq

namespace Reading

/-- Nothing has been read. -/
def initial : Reading := ⟨[], [], [], .start⟩

/-- Takes a character into the open field. -/
def take (r : Reading) (c : Char) (place : FieldPlace) : Reading :=
  { r with field := c :: r.field, place := place }

/-- The fields of the open record, the open field among them. -/
def recordSoFar (r : Reading) : List String := String.ofList r.field.reverse :: r.fields

/-- Ends the open field. -/
def endField (r : Reading) : Reading := ⟨r.records, r.recordSoFar, [], .start⟩

/-- Ends the open field and its record. -/
def endRecord (r : Reading) : Reading := ⟨r.recordSoFar.reverse :: r.records, [], [], .start⟩

/-- Reads a character. A quote that neither begins nor ends a field stands between quotes, or the
text cannot be read; nor can it if a quoted field goes on behind its quotes. -/
def step (r : Reading) (c : Char) : Option Reading :=
  if r.place = .quoted then
    some (if c = '"' then { r with place := .closing } else r.take c .quoted)
  else if c = ',' then some r.endField
  else if c = '\n' then some r.endRecord
  else if c = '"' then
    match r.place with
    | .start => some { r with place := .quoted }
    | .closing => some (r.take c .quoted)
    | _ => none
  else if r.place = .closing then none
  else some (r.take c .plain)

/-- Reads characters one after the other. -/
def run (r : Reading) (text : List Char) : Option Reading := text.foldlM step r

end Reading

/-- Reads comma-separated text, the last record of which has ended. -/
def readRecords? (text : String) : Option (List (List String)) :=
  match Reading.initial.run text.toList with
  | some ⟨records, [], [], .start⟩ => some records.reverse
  | _ => none

/-- A character without a meaning in comma-separated text. -/
def IsPlainChar (c : Char) : Prop := c ≠ ',' ∧ c ≠ '\n' ∧ c ≠ '"'

theorem isPlainChar_of_isAlphanum {c : Char} (h : c.isAlphanum = true) : IsPlainChar c := by
  refine ⟨?_, ?_, ?_⟩
  all_goals
    rintro rfl
    exact absurd h (by decide)

namespace Reading

variable {r : Reading} {text : List Char}

theorem run_nil (r : Reading) : r.run [] = some r := rfl

theorem run_cons (r : Reading) (c : Char) (rest : List Char) :
    r.run (c :: rest) = (r.step c).bind fun r' => r'.run rest := rfl

theorem run_append (r : Reading) (text rest : List Char) :
    r.run (text ++ rest) = (r.run text).bind fun r' => r'.run rest :=
  List.foldlM_append

theorem step_comma (h : r.place ≠ .quoted) : r.step ',' = some r.endField := by
  rw [step, if_neg h, if_pos rfl]

theorem step_newline (h : r.place ≠ .quoted) : r.step '\n' = some r.endRecord := by
  rw [step, if_neg h, if_neg (by decide), if_pos rfl]

/-- Outside quotes a character without a meaning is taken as it stands. -/
theorem step_plain {c : Char} (h : IsPlainChar c) (hplace : r.place = .start ∨ r.place = .plain) :
    r.step c = some (r.take c .plain) := by
  obtain ⟨hcomma, hnewline, hquote⟩ := h
  rw [step, if_neg, if_neg hcomma, if_neg hnewline, if_neg hquote, if_neg]
  · rcases hplace with hplace | hplace <;> simp [hplace]
  · rcases hplace with hplace | hplace <;> simp [hplace]

/-- **A field without characters that have a meaning is read as it stands.** -/
theorem run_plain (h : ∀ c ∈ text, IsPlainChar c) (hplace : r.place = .start ∨ r.place = .plain) :
    ∃ place ≠ FieldPlace.quoted,
      r.run text = some { r with field := text.reverse ++ r.field, place := place } := by
  induction text generalizing r with
  | nil =>
    refine ⟨r.place, ?_, rfl⟩
    rcases hplace with hplace | hplace <;> simp [hplace]
  | cons c text ih =>
    obtain ⟨hc, htext⟩ := List.forall_mem_cons.1 h
    obtain ⟨place, hne, hrun⟩ := ih (r := r.take c .plain) htext (.inr rfl)
    refine ⟨place, hne, ?_⟩
    rw [run_cons, step_plain hc hplace, Option.bind_some, hrun]
    simp [take]

/-- The characters of a field between quotes: a quote is written twice. -/
def doubled (text : List Char) : List Char :=
  text.flatMap fun c => if c == '"' then ['"', '"'] else [c]

/-- Between quotes a character is taken, a quote as one of the two that are written. -/
theorem run_doubled (hplace : r.place = .quoted) :
    r.run (doubled text) = some { r with field := text.reverse ++ r.field, place := .quoted } := by
  induction text generalizing r with
  | nil =>
    rw [← hplace]
    rfl
  | cons c text ih =>
    have hc : r.run (if c == '"' then ['"', '"'] else [c]) = some (r.take c .quoted) := by
      by_cases hquote : c = '"'
      · subst hquote
        have hclosing : r.step '"' = some { r with place := .closing } := by
          rw [step, if_pos hplace, if_pos rfl]
        have hsecond : ({ r with place := .closing } : Reading).step '"' =
            some (r.take '"' .quoted) := rfl
        show r.run ['"', '"'] = _
        rw [run_cons, hclosing, Option.bind_some, run_cons, hsecond, Option.bind_some, run_nil]
      · rw [if_neg (by simpa using hquote), run_cons, step, if_pos hplace, if_neg hquote,
          Option.bind_some, run_nil]
    rw [doubled, List.flatMap_cons, run_append, hc, Option.bind_some]
    show (r.take c .quoted).run (doubled text) = _
    rw [ih rfl]
    simp [take]

/-- **What is quoted is read up to the quotes around it.** -/
theorem run_quoted (text : List Char) (hplace : r.place = .start) :
    r.run ('"' :: doubled text ++ ['"']) =
      some { r with field := text.reverse ++ r.field, place := .closing } := by
  have hopen : r.step '"' = some { r with place := .quoted } := by
    simp [step, hplace]
  rw [List.cons_append, run_cons, hopen, Option.bind_some, run_append, run_doubled rfl,
    Option.bind_some]
  rfl

end Reading

end Frontend.Text
