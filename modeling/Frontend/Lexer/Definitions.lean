import Frontend.Error
import Frontend.Text.Lines

/-!
# Token definitions

A file of definitions has one `name: pattern` to a line; blank lines and lines that begin
with `--` say nothing. Every definition is a token, and the earlier of two has the higher
priority. No name is defined twice.
-/

namespace Frontend

/-- One definition, with the line that it was read from. -/
structure Definition where
  name : String
  /-- The pattern as written, with its references. -/
  pattern : String
  line : Nat
  /-- The text of the line, trimmed. -/
  text : String
  deriving DecidableEq, Repr

namespace Definition

/-- The error that blames the line of a definition. -/
def malformed (d : Definition) : Error := .malformedDefinition d.line d.text

/-- Tells whether a name can begin with a character. -/
def startsName (c : Char) : Bool := c.isAlpha || c == '_'

/-- Tells whether a name can go on with a character. -/
def continuesName (c : Char) : Bool := c.isAlphanum || c == '_'

/-- Splits a trimmed line into the name and the pattern that it defines. -/
def split? (line : List Char) : Option (List Char × List Char) :=
  match line with
  | [] => none
  | c :: _ =>
    if startsName c then
      match (line.dropWhile continuesName).dropWhile Text.isBlank with
      | ':' :: rest => some (line.takeWhile continuesName, Text.trim rest)
      | _ => none
    else none

/-- Reads a trimmed line as the definition on line `n`. -/
def ofLine (n : Nat) (line : List Char) : Except Error Definition :=
  match split? line with
  | some (name, pattern) =>
    .ok ⟨String.ofList name, String.ofList pattern, n, String.ofList line⟩
  | none => .error (.malformedDefinition n (String.ofList line))

end Definition

/-- Definitions in their order of priority, each name defined once. -/
structure Definitions where
  toList : List Definition
  nodup : (toList.map Definition.name).Nodup

namespace Definitions

theorem toList_inj {ds es : Definitions} : ds.toList = es.toList ↔ ds = es := by
  cases ds; cases es; simp

instance : DecidableEq Definitions := fun _ _ => decidable_of_iff _ toList_inj

/-- No definitions. -/
def empty : Definitions := ⟨[], List.nodup_nil⟩

instance : EmptyCollection Definitions := ⟨empty⟩

/-- The definition of a name. -/
def find? (ds : Definitions) (name : String) : Option Definition :=
  ds.toList.find? fun d => d.name == name

/-- The defined names in their order of priority. -/
def tokens (ds : Definitions) : List String := ds.toList.map Definition.name

/-- Adds a definition of a new name. -/
def add (ds : Definitions) (d : Definition) (h : d.name ∉ ds.tokens) : Definitions where
  toList := ds.toList ++ [d]
  nodup := by
    rw [List.map_append, List.nodup_append]
    refine ⟨ds.nodup, List.nodup_cons.2 ⟨List.not_mem_nil, List.nodup_nil⟩, fun a ha b hb e => h ?_⟩
    rw [List.map_singleton, List.mem_singleton] at hb
    exact hb ▸ e ▸ ha

/-- Tells whether a trimmed line says nothing. -/
def isSkipped (line : List Char) : Bool :=
  match line with
  | [] => true
  | '-' :: '-' :: _ => true
  | _ => false

/-- Adds the definitions on further lines. -/
def addLines (ds : Definitions) : List (Nat × List Char) → Except Error Definitions
  | [] => .ok ds
  | (n, line) :: rest => do
    let line := Text.trim line
    if isSkipped line then addLines ds rest
    else
      let d ← Definition.ofLine n line
      if h : d.name ∈ ds.tokens then .error d.malformed else addLines (ds.add d h) rest

/-- Reads a file of definitions. -/
def read (text : String) : Except Error Definitions :=
  addLines ∅ (Text.numberedLines text.toList)

/-! ## References

A pattern refers to a definition as `<name>`, which stands for the pattern of that name in
parentheses. An escape is left alone, and angle brackets have no other use.
-/

/-- A part of a pattern as references see it. -/
inductive Piece where
  /-- Text that is left as it is. -/
  | text (cs : List Char)
  | reference (name : String)
  /-- An angle bracket that belongs to no reference. -/
  | stray
  deriving DecidableEq, Repr

/-- Tells whether a character is an angle bracket. -/
def isAngle (c : Char) : Bool := c == '<' || c == '>'

/-- Splits a pattern into pieces. -/
def pieces : List Char → List Piece
  | [] => []
  | ['\\'] => [.text ['\\']]
  | '\\' :: c :: rest => .text ['\\', c] :: pieces rest
  | '>' :: rest => .stray :: pieces rest
  | '<' :: rest =>
    -- The next angle bracket must be the one that closes the reference.
    match h : rest.dropWhile (!isAngle ·) with
    | '>' :: more =>
      have : more.length < rest.length := by
        have := (List.dropWhile_sublist (l := rest) (!isAngle ·)).length_le
        rw [h, List.length_cons] at this
        omega
      .reference (String.ofList (rest.takeWhile (!isAngle ·))) :: pieces more
    | _ => .stray :: pieces rest
  | c :: rest => .text [c] :: pieces rest
termination_by cs => cs.length

/-- How deep references may nest. -/
def maxDepth : Nat := 64

/-- Expands the references in a pattern, with at most `levels - 1` further levels of them
below it; `origin` is the definition at the top. -/
def expandPattern (ds : Definitions) (origin : Definition) : Nat → String → Except Error String
  | 0, _ => .error origin.malformed
  | levels + 1, pattern => do
    let parts ← (pieces pattern.toList).mapM fun piece =>
      match piece with
      | .text cs => Except.ok (String.ofList cs)
      | .stray => .error (.malformedExpression pattern)
      | .reference name =>
        match ds.find? name with
        | none => .error (.undefinedReference name)
        | some d => (expandPattern ds origin levels d.pattern).map fun p => "(" ++ p ++ ")"
    return String.join parts

/-- The pattern of a name with every reference replaced. -/
def expand (ds : Definitions) (name : String) : Except Error String :=
  match ds.find? name with
  | none => .error (.undefinedReference name)
  | some d => ds.expandPattern d (maxDepth + 1) d.pattern

end Definitions

end Frontend
