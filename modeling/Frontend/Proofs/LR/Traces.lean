import Frontend.Proofs.LR.Runs
import Mathlib.Data.List.Chain

/-!
# Traces are faithful

The trace of a parse lists what the parser did and nothing else, whatever the table holds. Its
rows are numbered from 1; the first shows the configuration in which a parse begins; each move is
the one that the table asks for in the configuration of its row, and leads to the configuration
of the next; only the last row accepts or refuses (`ParseTable.Logs`). The numbers of an outcome
are those of its rows (`trace_is_faithful`).

A row is recorded before its move is made and counted after it, so the argument goes from a row
to those behind it: if the rest of a parse is logged from the next configuration on, then all of
it is from this one on (`Logs.proceed`).
-/

namespace Frontend.ParseTable

variable {t : ParseTable} {n : Nat} {c d : Configuration} {m : ParseMove} {rows : List TraceRow}
  {accepted : Bool}

/-! ## What a row says -/

/-- The move that a parser makes where the table has this action: where it has none or only a
state to go to, the parser refuses. -/
inductive Performs (t : ParseTable) : Option Action → ParseMove → Prop
  | shift (s : Nat) : Performs t (some (.shift s)) (.shift s)
  | reduce {n : Nat} {p : Production} (h : t.productions[n]? = some p) :
    Performs t (some (.reduce n)) (.reduce n p)
  | accept : Performs t (some .accept) .accept
  | goto (s : Nat) : Performs t (some (.goto s)) .refuse
  | vacant : Performs t none .refuse

/-- What a move makes of a configuration: a shift pushes a state and takes the first symbol off
the input; a reduction takes as many states off the stack as its body is long, and pushes the
state that the one below them goes to on its head. -/
inductive Executes (t : ParseTable) : Configuration → ParseMove → Configuration → Prop
  | shift (s : Nat) (stack : List Nat) (symbol : String) (rest : List String) :
    Executes t ⟨stack, symbol :: rest⟩ (.shift s) ⟨s :: stack, rest⟩
  | reduce {popped below : List Nat} {uncovered s n : Nat} {p : Production} (input : List String)
    (hpopped : popped.length = p.body.length)
    (hgoto : t.action? uncovered p.head = some (.goto s)) :
    Executes t ⟨popped ++ uncovered :: below, input⟩ (.reduce n p)
      ⟨s :: uncovered :: below, input⟩

/-- The rows of a parse from a configuration on, numbered from `n`, up to its verdict. -/
structure Logs (t : ParseTable) (n : Nat) (c : Configuration) (rows : List TraceRow)
    (accepted : Bool) : Prop where
  numbered : rows.map TraceRow.step = List.range' n rows.length
  first : rows.head?.map TraceRow.before = some c
  performs : ∀ row ∈ rows, t.Performs (t.actionAt? row.before) row.move
  executes : rows.IsChain fun row next => t.Executes row.before row.move next.before
  last : rows.getLast?.map TraceRow.move = some (if accepted then .accept else .refuse)
  earlier : ∀ row ∈ rows.dropLast, row.move ≠ .accept ∧ row.move ≠ .refuse

/-- A parser refuses exactly where no symbol is left, or the table has no action for the top state
and the first symbol, or only a state to go to. -/
theorem Performs.refuse_iff (h : t.Performs (t.actionAt? c) m) :
    m = .refuse ↔ c.input = [] ∨ ∃ symbol rest, c.input = symbol :: rest ∧
      (t.action? c.top symbol = none ∨ ∃ s, t.action? c.top symbol = some (.goto s)) := by
  have hrefuse : m = .refuse ↔ t.actionAt? c = none ∨ ∃ s, t.actionAt? c = some (.goto s) := by
    generalize t.actionAt? c = a at h
    cases h with
    | shift s => simp
    | reduce h => simp
    | accept => simp
    | goto s => simp
    | vacant => simp
  rw [hrefuse, actionAt?]
  cases c.input with
  | nil => simp
  | cons symbol rest => simp

/-! ## Steps -/

theorem performs_of_proceed (h : t.step c = .proceed m d) :
    t.Performs (t.actionAt? c) m ∧ t.Executes c m d := by
  obtain ⟨stack, input⟩ := c
  rcases step_eq_proceed_iff.1 h with ⟨r, ha, rfl, rfl⟩ | ⟨n, p, r, ha, hp, hlt, hgoto, rfl, rfl⟩
  · rw [ha]
    obtain ⟨symbol, hsymbol, -⟩ := Option.bind_eq_some_iff.1 ha
    obtain ⟨rest, rfl⟩ := List.head?_eq_some_iff.1 hsymbol
    exact ⟨.shift r, .shift r stack symbol rest⟩
  · rw [ha]
    refine ⟨.reduce hp, ?_⟩
    dsimp only at hlt hgoto ⊢
    -- The body is shorter than the stack, so that it leaves a state uncovered.
    cases hdrop : stack.drop p.body.length with
    | nil => exact absurd (List.drop_eq_nil_iff.1 hdrop) (Nat.not_le_of_lt hlt)
    | cons uncovered below =>
      have hstack : stack = stack.take p.body.length ++ uncovered :: below := by
        rw [← hdrop, List.take_append_drop]
      rw [hdrop, List.headD_cons] at hgoto
      have hpopped := List.length_take_of_le (Nat.le_of_lt hlt)
      generalize stack.take p.body.length = popped at hstack hpopped
      subst hstack
      exact .reduce input hpopped hgoto

theorem performs_of_halt (h : t.step c = .halt m accepted) :
    t.Performs (t.actionAt? c) m ∧ m = if accepted then .accept else .refuse := by
  rcases step_eq_halt_iff.1 h with ⟨ha, rfl, rfl⟩ | ⟨ha, rfl, rfl⟩
  · rw [ha]
    exact ⟨.accept, rfl⟩
  · refine ⟨?_, rfl⟩
    cases haction : t.actionAt? c with
    | none => exact .vacant
    | some a =>
      obtain ⟨s, rfl⟩ := ha a haction
      exact .goto s

/-- The row of a halt is the last one. -/
theorem Logs.halt (h : t.step c = .halt m accepted) : t.Logs n c [⟨n, c, m⟩] accepted := by
  obtain ⟨hperforms, rfl⟩ := performs_of_halt h
  exact ⟨rfl, rfl, List.forall_mem_singleton.2 hperforms, .singleton _, rfl, List.forall_mem_nil _⟩

/-- The row of a step stands before those that log the rest of the parse. -/
theorem Logs.proceed (hrows : t.Logs (n + 1) d rows accepted) (h : t.step c = .proceed m d) :
    t.Logs n c (⟨n, c, m⟩ :: rows) accepted := by
  obtain ⟨hperforms, hexecutes⟩ := performs_of_proceed h
  obtain ⟨row, hrow, hbefore⟩ := Option.map_eq_some_iff.1 hrows.first
  obtain ⟨rest, rfl⟩ := List.head?_eq_some_iff.1 hrow
  constructor
  case numbered =>
    rw [List.map_cons, hrows.numbered]
    exact List.range'_succ.symm
  case first => rfl
  case performs => exact List.forall_mem_cons.2 ⟨hperforms, hrows.performs⟩
  case executes => exact .cons_cons (hbefore ▸ hexecutes) hrows.executes
  case last => exact hrows.last
  case earlier =>
    refine List.forall_mem_cons.2 ⟨?_, hrows.earlier⟩
    cases hexecutes with
    | shift => exact ⟨nofun, nofun⟩
    | reduce => exact ⟨nofun, nofun⟩

/-! ## Runs -/

/-- From any progress on, a parse adds rows that log it, and counts what they show. -/
theorem runFrom_logs {tokens limit : Nat} {p : Progress} {o : ParseOutcome}
    (h : t.runFrom tokens limit p = some (.ok o)) :
    ∃ rows, o.trace = p.trace.reverse ++ rows ∧
      t.Logs (p.trace.length + 1) p.configuration rows o.accepted ∧ o.tokens = tokens ∧
        o.shifts = p.shifts + shiftsOf (rows.map TraceRow.move) ∧
          o.reductions = p.reductions + (reductionsOf (rows.map TraceRow.move)).length := by
  induction limit generalizing p with
  | zero => cases h
  | succ limit ih =>
    unfold runFrom at h
    split at h
    · cases h
    · next m accepted hstep =>
      obtain rfl := Except.ok.inj (Option.some.inj h)
      obtain ⟨-, rfl⟩ := performs_of_halt hstep
      refine ⟨[⟨p.trace.length + 1, p.configuration, _⟩], by simp [Progress.record],
        .halt hstep, rfl, ?_, ?_⟩
      -- The last row is neither a shift nor a reduction.
      · cases accepted <;> rfl
      · cases accepted <;> rfl
    · next m c hstep =>
      obtain ⟨rows, htrace, hlogs, htokens, hshifts, hreductions⟩ := ih h
      have hlength : ((p.record m).count m).trace.length = p.trace.length + 1 := by
        cases m <;> rfl
      rw [hlength] at hlogs
      refine ⟨_, ?_, hlogs.proceed hstep, htokens, ?_, ?_⟩
      · rw [htrace]
        cases m <;> simp [Progress.record, Progress.count]
      · rw [hshifts, List.map_cons, ← List.singleton_append, shiftsOf_append, ← Nat.add_assoc]
        cases m <;> rfl
      · rw [hreductions, List.map_cons, ← List.singleton_append, reductionsOf_append,
          List.length_append, ← Nat.add_assoc]
        cases m <;> rfl

/-- **The trace is a faithful log**, whatever is in the table: it shows every step in order, each
with the configuration before it, and the outcome counts its rows. -/
theorem trace_is_faithful {limit : Nat} {tokens : List String} {o : ParseOutcome}
    (h : t.parseWithin? limit tokens = some (.ok o)) :
    t.Logs 1 ⟨[0], tokens ++ [endMarker]⟩ o.trace o.accepted ∧
      (∀ row ∈ o.trace, row.move = .refuse ↔ row.before.input = [] ∨
        ∃ symbol rest, row.before.input = symbol :: rest ∧
          (t.action? row.before.top symbol = none ∨
            ∃ s, t.action? row.before.top symbol = some (.goto s))) ∧
      o.tokens = tokens.length ∧ o.shifts = shiftsOf o.moves ∧
        o.reductions = o.reducedBy.length := by
  obtain ⟨rows, htrace, hlogs, htokens, hshifts, hreductions⟩ := runFrom_logs h
  obtain rfl : o.trace = rows := htrace
  rw [Progress.initial, Nat.zero_add] at hshifts hreductions
  exact ⟨hlogs, fun row hrow => (hlogs.performs row hrow).refuse_iff, htokens, hshifts,
    hreductions⟩

/-- A table whose parts disagree: it shifts the end marker. -/
def overrunning : ParseTable where
  productions := [⟨"S'", ["S"]⟩, ⟨"S", ["a"]⟩]
  terminals := ["a", endMarker]
  nonterminals := ["S"]
  start := "S'"
  rows := [.ofList [("a", .shift 1), ("S", .goto 2)], .ofList [(endMarker, .reduce 1)],
    .ofList [(endMarker, .shift 3)], ∅]
  conflicts := []

/-- The parser reads one symbol more than there are tokens, and then has nothing left to read. -/
theorem trace_is_faithful_overrunning :
    ∃ o, overrunning.parseWithin? 10 ["a"] = some (.ok o) ∧ o.accepted = false ∧
      overrunning.Logs 1 ⟨[0], ["a", endMarker]⟩ o.trace false ∧
      o.trace.map (fun row => (row.before.stack, row.before.input)) =
        [([0], ["a", endMarker]), ([1, 0], [endMarker]), ([2, 0], [endMarker]), ([3, 2, 0], [])] ∧
      o.tokens = 1 ∧ o.shifts = shiftsOf o.moves ∧ o.shifts = 2 ∧
        o.reductions = o.reducedBy.length ∧ o.reductions = 1 := by
  obtain ⟨o, h, haccepted, hrows, htwo, hone⟩ : ∃ o,
      overrunning.parseWithin? 10 ["a"] = some (.ok o) ∧ o.accepted = false ∧
        o.trace.map (fun row => (row.before.stack, row.before.input)) =
          [([0], ["a", endMarker]), ([1, 0], [endMarker]), ([2, 0], [endMarker]),
            ([3, 2, 0], [])] ∧ o.shifts = 2 ∧ o.reductions = 1 := ⟨_, rfl, rfl, rfl, rfl, rfl⟩
  obtain ⟨hlogs, -, htokens, hshifts, hreductions⟩ := trace_is_faithful h
  rw [haccepted] at hlogs
  exact ⟨o, h, haccepted, hlogs, hrows, htokens, hshifts, htwo, hreductions, hone⟩

end Frontend.ParseTable
