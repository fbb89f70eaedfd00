import Frontend.LR.Table

/-!
# Table-driven parsing

A parser keeps a stack of states and the input still to be read, which ends with the end
marker. Each step takes the action of the top state on the next symbol and is recorded with
the configuration before it. Refusing an input is an outcome; errors arise only from tables
whose parts disagree.
-/

namespace Frontend

/-- The states on the stack, the top first, and the symbols still to be read. -/
structure Configuration where
  stack : List Nat
  input : List String
  deriving DecidableEq, Repr

namespace Configuration

/-- The configuration in which the parse of a list of tokens begins. -/
def initial (tokens : List String) : Configuration := ⟨[0], tokens ++ [endMarker]⟩

/-- The state on top of the stack. -/
def top (c : Configuration) : Nat := c.stack.headD 0

end Configuration

/-- What a parser does in one step. -/
inductive ParseMove where
  | shift (state : Nat)
  | reduce (n : Nat) (production : Production)
  | accept
  /-- There is no way to go on. -/
  | refuse
  deriving DecidableEq, Repr

/-- The result of one step: the move, and the next configuration unless the parse is over. -/
inductive StepResult where
  | proceed (move : ParseMove) (next : Configuration)
  | halt (move : ParseMove) (accepted : Bool)
  | fault (error : Error)
  deriving DecidableEq, Repr

namespace ParseTable

/-- The action in a configuration: that of the top state on the next symbol. -/
def actionAt? (t : ParseTable) (c : Configuration) : Option Action :=
  c.input.head?.bind fun symbol => t.action? c.top symbol

/-- Replaces the body of a production on the stack by its head. -/
def reduce (t : ParseTable) (c : Configuration) (n : Nat) (p : Production) : StepResult :=
  if p.body.length < c.stack.length then
    let rest := c.stack.drop p.body.length
    -- The state in which the body began decides where its head leads.
    let uncovered := rest.headD 0
    match t.action? uncovered p.head with
    | some (.goto next) => .proceed (.reduce n p) ⟨next :: rest, c.input⟩
    | _ => .fault (.missingGoto uncovered p.head)
  else .fault (.stackUnderflow n)

/-- One step of the parser. -/
def step (t : ParseTable) (c : Configuration) : StepResult :=
  match t.actionAt? c with
  | some (.shift next) => .proceed (.shift next) ⟨next :: c.stack, c.input.tail⟩
  | some (.reduce n) =>
    match t.productions[n]? with
    | some p => t.reduce c n p
    | none => .fault (.unknownProduction n)
  | some .accept => .halt .accept true
  | some (.goto _) | none => .halt .refuse false

end ParseTable

/-- A recorded step: its number, the configuration before it and the move. -/
structure TraceRow where
  step : Nat
  before : Configuration
  move : ParseMove
  deriving DecidableEq, Repr

/-- How far a parse has come. -/
structure Progress where
  configuration : Configuration
  /-- The steps so far, the latest first. -/
  trace : List TraceRow
  shifts : Nat
  reductions : Nat
  deriving DecidableEq, Repr

namespace Progress

/-- Nothing done yet. -/
def initial (tokens : List String) : Progress := ⟨.initial tokens, [], 0, 0⟩

/-- Records a move made in the present configuration. -/
def record (p : Progress) (move : ParseMove) : Progress :=
  { p with trace := ⟨p.trace.length + 1, p.configuration, move⟩ :: p.trace }

/-- Counts a move. -/
def count (p : Progress) : ParseMove → Progress
  | .shift _ => { p with shifts := p.shifts + 1 }
  | .reduce .. => { p with reductions := p.reductions + 1 }
  | .accept | .refuse => p

end Progress

/-- The outcome of a parse that came to an end. -/
structure ParseOutcome where
  accepted : Bool
  /-- The steps in order. -/
  trace : List TraceRow
  tokens : Nat
  shifts : Nat
  reductions : Nat
  deriving DecidableEq, Repr

namespace ParseTable

/-- Goes on with a parse of `tokens` tokens for at most `limit` steps; there is no answer if
it is not over then. -/
def runFrom (t : ParseTable) (tokens : Nat) :
    Nat → Progress → Option (Except Error ParseOutcome)
  | 0, _ => none
  | limit + 1, p =>
    match t.step p.configuration with
    | .fault e => some (.error e)
    | .halt move accepted =>
      some (.ok ⟨accepted, (p.record move).trace.reverse, tokens, p.shifts, p.reductions⟩)
    | .proceed move next =>
      t.runFrom tokens limit { (p.record move).count move with configuration := next }

/-- Parses a list of tokens in at most `limit` steps. -/
def parseWithin? (t : ParseTable) (limit : Nat) (tokens : List String) :
    Option (Except Error ParseOutcome) :=
  t.runFrom tokens.length limit (.initial tokens)

/-- More steps than any parse that is waited for takes. -/
def stepLimit : Nat := 18446744073709551616

/-- Parses a list of tokens. -/
def parse? (t : ParseTable) (tokens : List String) : Option (Except Error ParseOutcome) :=
  t.parseWithin? stepLimit tokens

end ParseTable

/-! ## Traces as text -/

/-- The text of a move. -/
def ParseMove.render : ParseMove → String
  | shift n => "s" ++ toString n
  | reduce n p => "r" ++ toString n ++ " (" ++ p.render ++ ")"
  | accept => "accept"
  | refuse => "ERRO"

/-- The text of a recorded step; the stack is written bottom first. -/
def TraceRow.render (r : TraceRow) : String :=
  String.intercalate " | "
    [toString r.step, String.intercalate " " (r.before.stack.reverse.map toString),
      String.intercalate " " r.before.input, r.move.render]

/-- The text of a trace, with its verdict. -/
def ParseOutcome.renderTrace (o : ParseOutcome) : String :=
  Text.unlines <|
    "STEP | STACK | INPUT | ACTION" :: o.trace.map TraceRow.render ++
      ["", if o.accepted then "ACCEPTED" else "REJECTED"]

end Frontend
