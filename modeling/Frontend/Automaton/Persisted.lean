import Frontend.Automaton.Basic
import Frontend.Error
import Frontend.Text.Lines

/-!
# The persisted form of an automaton

Four header lines give the number of states, the initial state, the final states and the
alphabet; each further line gives a transition as `origin,symbol,destination`. A final state
is named after its token, with a count from the second such state on; every other state is
named `q0`, `q1`, …. A token that looks like a plain name or contains the count's mark
always carries its count, so the two kinds of names never meet, and reading finds the token
in the name.
-/

namespace Frontend.Automaton

open Text (quoted)

/-! ## Names and labels -/

/-- Tells whether a name is `q` followed by digits. -/
def isPlainName : List Char → Bool
  | 'q' :: digits => !digits.isEmpty && digits.all Char.isDigit
  | _ => false

/-- The name of the `n`-th final state of a token. -/
def tokenName (token : String) (n : Nat) : String :=
  if n = 1 && !isPlainName token.toList && !token.toList.contains '#' then token
  else token ++ "#" ++ toString n

/-- Names final states after their tokens; `earlier` holds the tokens named before. -/
def tokenNames (earlier : List String) : List (String × String) → List (String × String)
  | [] => []
  | (state, token) :: rest =>
    (state, tokenName token (earlier.count token + 1)) :: tokenNames (token :: earlier) rest

/-- Names states `q` followed by their number, counting from `n`. -/
def plainNames (n : Nat) : List String → List (String × String)
  | [] => []
  | state :: rest => (state, "q" ++ toString n) :: plainNames (n + 1) rest

/-- The names that the states have in the persisted form. -/
def persistedNames (a : Automaton) : OrdMap String String :=
  let recognisers := a.finals.toList.filterMap fun s => (a.tokens.get? s).map fun t => (s, t)
  let named := tokenNames [] recognisers
  let others := a.states.toList.filter fun s => decide (s ∉ named.map Prod.fst)
  OrdMap.ofList (named ++ plainNames 0 others)

/-- The token that a final state of this name recognises: the name without its count, and
none for a plain name. -/
def tokenOfName (name : List Char) : Option (List Char) :=
  if isPlainName name then none
  else
    match Text.cutLast? '#' name with
    | some (token, count) =>
      if !count.isEmpty && count.all Char.isDigit then some token else some name
    | none => some name

/-- The written form of a label: `&` reads nothing, and the character `&` is escaped. -/
def labelText : Label → List Char
  | .epsilon => ['&']
  | .symbol c => if c = '&' then ['\\', '&'] else [c]

/-- Reads the written form of a label. -/
def readLabel? : List Char → Option Label
  | [c] => some (if c = '&' then .epsilon else .symbol c)
  | [c, d] => if c = '\\' ∧ d = '&' then some (.symbol '&') else none
  | _ => none

/-! ## Writing -/

/-- A token that cannot serve as the name of a state. -/
structure UnwritableToken where
  token : String
  deriving DecidableEq, Repr

/-- What an unwritable token says to the user. -/
def UnwritableToken.message (e : UnwritableToken) : String :=
  "token " ++ quoted e.token ++ " cannot be written as a state name"

/-- Tells whether a token can serve as a name: it is not empty and holds neither a comma nor
a blank character. -/
def isWritable (token : String) : Bool :=
  !token.toList.isEmpty && token.toList.all fun c => c != ',' && !Text.isBlank c

/-- A transition line. -/
structure Triple where
  origin : String
  symbol : String
  destination : String
  deriving DecidableEq, Repr

/-- Lines are sorted by origin, then symbol, then destination. -/
def Triple.notAfter (t u : Triple) : Bool :=
  if t.origin = u.origin then
    if t.symbol = u.symbol then !decide (u.destination < t.destination)
    else decide (t.symbol < u.symbol)
  else decide (t.origin < u.origin)

/-- The text of a transition line. -/
def Triple.render (t : Triple) : String := t.origin ++ "," ++ t.symbol ++ "," ++ t.destination

/-- The transitions of an automaton with its states under the given names. -/
def triples (a : Automaton) (name : String → String) : List Triple :=
  a.transitions.toList.flatMap fun (move, targets) =>
    targets.toList.map fun target =>
      ⟨name move.source, String.ofList (labelText move.label), name target⟩

/-- Writes the persisted form. -/
def write (a : Automaton) : Except UnwritableToken String :=
  match a.tokens.values.find? fun token => !isWritable token with
  | some token => .error ⟨token⟩
  | none =>
    let names := a.persistedNames
    let name := fun s => names.getD s s
    let finals := (a.finals.toList.map name).mergeSort fun s t => !decide (t < s)
    let alphabet := a.alphabet.toList.map fun c => String.ofList (labelText (.symbol c))
    .ok <| Text.unlines <|
      [toString a.states.size, name a.initial, String.intercalate "," finals,
        String.intercalate "," alphabet] ++
        ((a.triples name).mergeSort Triple.notAfter).map Triple.render

/-! ## Reading -/

/-- What can be wrong with a line of a persisted automaton. -/
inductive LineFault where
  | emptyInput
  | missingHeader
  | badCount (line : String)
  | missingInitial
  | badAlphabetSymbol (symbol : String)
  | missingComma (line : String)
  | missingSymbol (line : String)
  | badSymbol (symbol : String)
  | emptyName (line : String)
  deriving DecidableEq, Repr

/-- What a fault says to the user. -/
def LineFault.reason : LineFault → String
  | emptyInput => "empty input"
  | missingHeader => "expected four header lines"
  | badCount line => "state count " ++ quoted line ++ " is not a number"
  | missingInitial => "missing initial state"
  | badAlphabetSymbol symbol => "alphabet symbol " ++ quoted symbol ++ " is not one character"
  | missingComma line => "expected origin,symbol,destination in " ++ quoted line
  | missingSymbol line => "missing symbol in " ++ quoted line
  | badSymbol symbol => "symbol " ++ quoted symbol ++ " is not one character"
  | emptyName line => "empty state name in " ++ quoted line

/-- The error of a fault in the given line. -/
def LineFault.atLine (line : Nat) (fault : LineFault) : Error :=
  .malformedAutomaton line fault.reason

/-- The first number that does not fit in 64 bits. -/
def countLimit : Nat := 18446744073709551616

/-- Tells whether a text is a count: decimal digits, perhaps after a plus sign, of a number
that fits in 64 bits. -/
def isCount (text : List Char) : Bool :=
  let digits :=
    match text with
    | '+' :: digits => digits
    | digits => digits
  !digits.isEmpty && digits.all Char.isDigit &&
    digits.foldl (fun n c => 10 * n + (c.toNat - '0'.toNat)) 0 < countLimit

/-- The entries of a header line: trimmed, the blank ones left out. -/
def entries (line : List Char) : List (List Char) :=
  ((Text.fields ',' line).map Text.trim).filter fun entry => !entry.isEmpty

/-- Reads the alphabet from its entries; an empty label among them says nothing. -/
def readAlphabet : List (List Char) → Except LineFault (OrdSet Char)
  | [] => .ok ∅
  | entry :: rest =>
    match readLabel? entry with
    | none => .error (.badAlphabetSymbol (String.ofList entry))
    | some label => (readAlphabet rest).map (label.symbols ∪ ·)

/-- Reads a transition line. The states contain no comma, but the symbol may be one. -/
def readTransition (line : List Char) : Except LineFault (Move × String) :=
  match Text.cutFirst? ',' line, Text.cutLast? ',' line with
  | some (origin, rest), some (_, target) =>
    -- A symbol is left only if the line has two commas at least.
    match Text.cutLast? ',' rest with
    | none => .error (.missingSymbol (String.ofList line))
    | some (symbol, _) =>
      match readLabel? symbol with
      | none => .error (.badSymbol (String.ofList symbol))
      | some label =>
        let origin := Text.trim origin
        let target := Text.trim target
        if origin.isEmpty || target.isEmpty then .error (.emptyName (String.ofList line))
        else .ok (⟨String.ofList origin, label⟩, String.ofList target)
  | _, _ => .error (.missingComma (String.ofList line))

/-- Reads the transition lines from line `n` on into an automaton, skipping blank ones. -/
def readTransitions (n : Nat) (a : Automaton) : List (List Char) → Except Error Automaton
  | [] => .ok a
  | line :: rest =>
    if Text.isBlankText line then readTransitions (n + 1) a rest
    else
      match readTransition line with
      | .error fault => .error (fault.atLine n)
      | .ok (move, target) =>
        readTransitions (n + 1) (a.addTransition move.source move.label target) rest

/-- The lines of a persisted automaton without the carriage returns at their ends and up to
the last that is not blank. -/
def significantLines (text : List Char) : List (List Char) :=
  let ls := (Text.lines text).map fun line => (line.reverse.dropWhile (· == '\r')).reverse
  (ls.reverse.dropWhile Text.isBlankText).reverse

/-- The automaton of the header lines, its alphabet yet to be filled in. -/
def ofHeader (initial finals : List Char) : Automaton :=
  (entries finals).foldl
    (fun a state => a.addFinal (String.ofList state) ((tokenOfName state).map String.ofList))
    (ofInitial (String.ofList initial))

/-- Reads the persisted form. The first line at fault is reported. -/
def read (text : String) : Except Error Automaton :=
  match significantLines text.toList with
  | [] => .error (LineFault.emptyInput.atLine 1)
  | count :: initial :: finals :: alphabet :: transitions =>
    if !isCount (Text.trim count) then
      .error ((LineFault.badCount (String.ofList count)).atLine 1)
    else if Text.isBlankText initial then .error (LineFault.missingInitial.atLine 2)
    else
      match readAlphabet (entries alphabet) with
      | .error fault => .error (fault.atLine 4)
      | .ok symbols =>
        readTransitions 5 { ofHeader (Text.trim initial) finals with alphabet := symbols }
          transitions
  | short => .error (LineFault.missingHeader.atLine (short.length + 1))

end Frontend.Automaton
