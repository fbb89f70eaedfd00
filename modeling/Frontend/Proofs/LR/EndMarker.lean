import Frontend.Lexer.Lexeme
import Frontend.Proofs.LR.Soundness

/-!
# Where a parser accepts

A parser accepts with the end marker ahead, and it never reads one: the end marker is no symbol
of the grammar, so no state shifts it (`endMarker_not_mem_take`). Hence an input that is accepted
has been read as far as the first end marker in it, and no further (`accepts_at_first_endMarker`).

If no token has the name of the end marker, this is the mark behind the tokens, and all of them
have been read. A token of that name passes for the mark instead, and what comes behind it is
never looked at (`not_accepts_all_tokens`).
-/

namespace Frontend.ParseTable

variable {g : Grammar} {tokens : List String} {c d : Configuration} {m : ParseMove}
  {ms : List ParseMove}

/-! ## The end marker is not read -/

/-- Nothing that is shifted is the end marker. -/
theorem ne_endMarker_of_shift {x : String} {q r : Nat} (hg : g.Proper)
    (h : (ofGrammar g).action? q x = some (.shift r)) : x ≠ endMarker := by
  obtain ⟨i, -, hnext, -, -⟩ := asks_of_action? h
  exact hg.ne_endMarker_of_next? hnext

/-- **A run reads no end marker.** -/
theorem endMarker_not_mem_take (hg : g.Proper) (h : (ofGrammar g).Runs c ms d) :
    endMarker ∉ c.input.take (shiftsOf ms) := by
  induction h with
  | refl c => simp
  | @step c d e m ms hstep _ ih =>
    rcases step_eq_proceed_iff.1 hstep with
      ⟨r, ha, rfl, rfl⟩ | ⟨n, p, r, -, -, -, -, rfl, rfl⟩
    · obtain ⟨x, hx, ha⟩ := Option.bind_eq_some_iff.1 ha
      obtain ⟨more, hinput⟩ := List.head?_eq_some_iff.1 hx
      rw [hinput] at ih ⊢
      rw [shiftsOf_shift, List.take_succ_cons, List.mem_cons, not_or]
      exact ⟨(ne_endMarker_of_shift hg ha).symm, ih⟩
    · rw [shiftsOf_reduce]
      exact ih

/-- A parser accepts with the end marker ahead. -/
theorem head?_of_accept (h : (ofGrammar g).step d = .halt m true) :
    m = .accept ∧ d.input.head? = some endMarker := by
  rcases step_eq_halt_iff.1 h with ⟨ha, rfl, -⟩ | ⟨-, -, hno⟩
  · obtain ⟨x, hx, ha⟩ := Option.bind_eq_some_iff.1 ha
    obtain ⟨i, -, -, -, rfl⟩ := asks_of_action? ha
    exact ⟨rfl, hx⟩
  · cases hno

/-! ## The first end marker -/

/-- The outcome of a parse shows the number of tokens that it was given. -/
theorem tokens_of_runFrom {t : ParseTable} {n limit : Nat} {p : Progress} {o : ParseOutcome}
    (h : t.runFrom n limit p = some (.ok o)) : o.tokens = n := by
  induction limit generalizing p with
  | zero => cases h
  | succ limit ih =>
    unfold runFrom at h
    split at h
    · cases h
    · obtain rfl := Except.ok.inj (Option.some.inj h)
      rfl
    · exact ih h

/-- **A parse accepts at the first end marker**: the tokens before it have been read and what is
left begins with it. So all tokens have been read, and only the mark behind them is left, exactly
if no token has the name of the mark. -/
theorem accepts_at_first_endMarker {text : String} {limit : Nat} {o : ParseOutcome}
    (hread : Grammar.read text = .ok g)
    (hparse : (ofGrammar g).parseWithin? limit tokens = some (.ok o))
    (haccepted : o.accepted = true) :
    o.tokens = tokens.length ∧ o.shifts = tokens.idxOf endMarker ∧
      ∃ n before, o.trace.getLast? = some ⟨n, before, .accept⟩ ∧
        before.input = tokens.drop o.shifts ++ [endMarker] ∧
          (o.shifts = o.tokens ∧ before.input = [endMarker] ↔ endMarker ∉ tokens) := by
  have hg := Grammar.proper_of_read hread
  have htokens := tokens_of_runFrom hparse
  obtain ⟨ms, d, m, hruns, hhalt, -, hshifts, n, hlast⟩ := runFrom_run hparse
  rw [haccepted] at hhalt
  obtain ⟨rfl, hhead⟩ := head?_of_accept hhalt
  have hinput : d.input = (tokens ++ [endMarker]).drop (shiftsOf ms) := hruns.input
  have hplace : shiftsOf ms = tokens.idxOf endMarker := by
    rw [← List.idxOf_concat, ← List.idxOf_eq_of_drop (endMarker_not_mem_take hg hruns) (hinput ▸ hhead)]
    rfl
  have hle : tokens.idxOf endMarker ≤ tokens.length := List.idxOf_le_length
  have hshifts : o.shifts = tokens.idxOf endMarker := by
    rw [hshifts, hplace, Progress.initial, Nat.zero_add]
  rw [hplace, List.drop_append_of_le_length hle] at hinput
  rw [hshifts]
  refine ⟨htokens, rfl, n, d, hlast, hinput, ⟨fun h hmem => ?_, fun hnot => ?_⟩⟩
  · have hlt := List.idxOf_lt_length_of_mem hmem
    omega
  · have hall := List.idxOf_eq_length hnot
    rw [hinput, htokens, hall, List.drop_length]
    exact ⟨rfl, rfl⟩

/-- Lists of names, each behind a comma. -/
def listed : Grammar := ⟨"L", ⟨[("L", [["n"], ["L", ",", "n"]])], by decide⟩⟩

/-- No token has the name of the end marker, so all five are read. -/
theorem accepts_at_first_endMarker_listed :
    Grammar.read "L ::= n | L , n" = .ok listed ∧
      ∃ o, (ofGrammar listed).parseWithin? 20 ["n", ",", "n", ",", "n"] = some (.ok o) ∧
        o.accepted = true ∧ o.shifts = o.tokens ∧
          ∃ n before, o.trace.getLast? = some ⟨n, before, .accept⟩ ∧
            before.input = [endMarker] := by
  have hread : Grammar.read "L ::= n | L , n" = .ok listed := by decide +kernel
  obtain ⟨o, hparse, haccepted⟩ : ∃ o,
      (ofGrammar listed).parseWithin? 20 ["n", ",", "n", ",", "n"] = some (.ok o) ∧
        o.accepted = true := ⟨_, rfl, rfl⟩
  obtain ⟨-, -, n, before, hlast, -, hiff⟩ := accepts_at_first_endMarker hread hparse haccepted
  obtain ⟨hshifts, hinput⟩ := hiff.2 (by decide)
  exact ⟨hread, o, hparse, haccepted, hshifts, n, before, hlast, hinput⟩

/-- **A token with the name of the end marker ends the input**: the name behind it, with which no
sentence goes on, is not looked at, and the tokens are accepted. A stream of lexemes can hold such
a token. -/
theorem not_accepts_all_tokens :
    Grammar.read "L ::= n | L , n" = .ok listed ∧
      tokenColumn "<a,n>\n<x,$>\n<b,n>\n" = .ok ["n", "$", "n"] ∧
        ∃ o, (ofGrammar listed).parseWithin? 20 ["n", "$", "n"] = some (.ok o) ∧
          o.accepted = true ∧ o.shifts = 1 ∧ o.tokens = 3 ∧
            ∃ n before, o.trace.getLast? = some ⟨n, before, .accept⟩ ∧
              before.input = ["$", "n", "$"] := by
  have hread : Grammar.read "L ::= n | L , n" = .ok listed := by decide +kernel
  have hcolumn : tokenColumn "<a,n>\n<x,$>\n<b,n>\n" = .ok ["n", "$", "n"] := by decide +kernel
  exact ⟨hread, hcolumn, _, rfl, rfl, rfl, rfl, _, _, rfl, rfl⟩

end Frontend.ParseTable
