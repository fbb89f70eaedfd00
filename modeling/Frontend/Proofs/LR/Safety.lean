import Frontend.Proofs.Grammar.FirstFollow
import Frontend.Proofs.LR.Soundness

/-!
# A parser fits its table

Errors arise from a table whose parts disagree, and the parts of the table of a grammar never
do. What every step keeps is `OnPath`: the collection passes through the states on the stack.
Where a state reduces a production, the body of the production lies on the stack as a whole, and
the state below it has the head after a dot; so there is a state to go to (`exists_goto`), also
where conflicts were resolved. Hence no parse ends in an error (`parse_has_no_error`), whatever
the tokens are.
-/

namespace Frontend

/-- The collection passes through the states on the stack. -/
def OnPath (g : Grammar) (c : Configuration) : Prop := ∃ spelt, g.Spells c.stack spelt

namespace ParseTable

variable {g : Grammar} {c d : Configuration} {q : Nat} {i : Item} {x : String} {m : ParseMove}

/-! ## Where a head leads -/

/-- What a reduction is asked on is a terminal or the end marker. -/
theorem Asks.reduce_column {n : Nat} (hi : g.HasItem q i) (h : Asks g q i x (.reduce n)) :
    g.isTerminal x = true ∨ x = endMarker := by
  obtain ⟨-, rfl, hn, hfollow⟩ := h
  obtain ⟨p, hp, -⟩ := hi.fits
  have hhead : g.isNonterminal (headOf g i) = true := by
    rw [headOf, hp]
    exact Grammar.isNonterminal_head (Grammar.mem_productions_of_ne_zero hn hp)
  exact Grammar.mem_followSets_range hhead hfollow

/-- In the column of a nonterminal an item asks only where to go. -/
theorem Asks.eq_goto {a : Action} (hg : g.Proper) (hx : g.isNonterminal x = true)
    (hi : g.HasItem q i) (h : Asks g q i x a) : ∃ r, a = .goto r := by
  have hend : x ≠ endMarker := by
    intro heq
    rw [heq, hg.endMarker_not_head] at hx
    cases hx
  cases a with
  | shift r => cases hx.symm.trans h.2.2
  | goto r => exact ⟨r, rfl⟩
  | accept => exact absurd h.2.2 hend
  | reduce n =>
    rcases h.reduce_column hi with ht | heq
    · cases hx.symm.trans (Grammar.isNonterminal_of_isTerminal ht)
    · exact absurd heq hend

/-- In the column of a nonterminal there are only states to go to. -/
theorem eq_goto_of_action? {a : Action} (hg : g.Proper) (hx : g.isNonterminal x = true)
    (h : (ofGrammar g).action? q x = some a) : ∃ r, a = .goto r := by
  obtain ⟨i, hi, hasks⟩ := asks_of_action? h
  exact hasks.eq_goto hg hx hi

/-- **A state with a nonterminal after a dot has a state to go to** on it. -/
theorem exists_goto (hg : g.Proper) (hi : g.HasItem q i)
    (hnext : i.next? g.augmentedProductions = some x) (hx : g.isNonterminal x = true) :
    ∃ r, (ofGrammar g).action? q x = some (.goto r) := by
  obtain ⟨r, hgoes, -⟩ := hi.advance hnext (hg.ne_endMarker_of_next? hnext)
  have hasks : Asks g q i x (.goto r) := ⟨hnext, hgoes, hx⟩
  obtain ⟨a, ha⟩ := exists_action?_of_asks hi hasks
  obtain ⟨r, rfl⟩ := eq_goto_of_action? hg hx ha
  exact ⟨r, ha⟩

/-! ## Steps -/

theorem onPath_initial (tokens : List String) : OnPath g (.initial tokens) := ⟨[], .bottom⟩

theorem onPath_shift {r : Nat} (hc : OnPath g c)
    (ha : (ofGrammar g).actionAt? c = some (.shift r)) : OnPath g ⟨r :: c.stack, c.input.tail⟩ := by
  obtain ⟨spelt, hspells⟩ := hc
  obtain ⟨x, -, ha⟩ := Option.bind_eq_some_iff.1 ha
  obtain ⟨i, -, -, hgoes, -⟩ := asks_of_action? ha
  obtain ⟨stack, input⟩ := c
  obtain ⟨q, below, rfl⟩ := hspells.exists_top
  exact ⟨spelt ++ [x], .push hspells hgoes⟩

/-- A reduction finds its production, the states to take off the stack and one to go to. -/
theorem reduce_proceeds {n : Nat} (hg : g.Proper) (hc : OnPath g c)
    (ha : (ofGrammar g).actionAt? c = some (.reduce n)) :
    ∃ p d, (ofGrammar g).productions[n]? = some p ∧
      (ofGrammar g).reduce c n p = .proceed (.reduce n p) d ∧ OnPath g d := by
  obtain ⟨spelt, hspells⟩ := hc
  obtain ⟨x, -, ha⟩ := Option.bind_eq_some_iff.1 ha
  obtain ⟨⟨n, dot⟩, hi, hnext, rfl, hn, -⟩ := asks_of_action? ha
  obtain ⟨p, hp, rfl⟩ := (Item.next?_eq_none_iff hi.fits).1 hnext
  obtain ⟨stack, input⟩ := c
  obtain ⟨q, below, rfl⟩ := hspells.exists_top
  obtain ⟨r, rest, opened, hdrop, hrest, hopen, -⟩ := hspells.pop hi hp
  have hlength : p.body.length < (q :: below).length := by
    have hdropped := congrArg List.length hdrop
    rw [List.length_drop, List.length_cons (a := r)] at hdropped
    omega
  -- The production was opened in the state below its body, so its head is after a dot there.
  obtain ⟨j, hj, hhead⟩ := hopen.exists_before hn hp
  have hnonterminal := Grammar.isNonterminal_head (Grammar.mem_productions_of_ne_zero hn hp)
  obtain ⟨next, hgoto⟩ := exists_goto hg hj hhead hnonterminal
  obtain ⟨-, -, -, hgoes, -⟩ := asks_of_action? hgoto
  refine ⟨p, ⟨next :: r :: rest, input⟩, hp, ?_, opened ++ [p.head], .push hrest hgoes⟩
  rw [reduce, if_pos hlength]
  dsimp only
  rw [hdrop, List.headD_cons, hgoto]

/-- **No step is at a loss**, and every step stays on a path of the collection. -/
theorem step_onPath (hg : g.Proper) (hc : OnPath g c) :
    (∀ e, (ofGrammar g).step c ≠ .fault e) ∧
      ∀ m d, (ofGrammar g).step c = .proceed m d → OnPath g d := by
  cases ha : (ofGrammar g).actionAt? c with
  | none => simp [step, ha]
  | some a =>
    cases a with
    | shift r =>
      have hstep : (ofGrammar g).step c = .proceed (.shift r) ⟨r :: c.stack, c.input.tail⟩ := by
        rw [step, ha]
      rw [hstep]
      refine ⟨fun _ => nofun, fun m d h => ?_⟩
      obtain ⟨rfl, rfl⟩ := StepResult.proceed.inj h
      exact onPath_shift hc ha
    | reduce n =>
      obtain ⟨p, d, hp, hreduce, hd⟩ := reduce_proceeds hg hc ha
      have hstep : (ofGrammar g).step c = .proceed (.reduce n p) d := by
        rw [step, ha]
        dsimp only
        rw [hp]
        exact hreduce
      rw [hstep]
      refine ⟨fun _ => nofun, fun m d' h => ?_⟩
      obtain ⟨rfl, rfl⟩ := StepResult.proceed.inj h
      exact hd
    | goto r => simp [step, ha]
    | accept => simp [step, ha]

/-! ## Runs -/

theorem onPath_run {ms : List ParseMove} (hg : g.Proper) (hc : OnPath g c)
    (hruns : (ofGrammar g).Runs c ms d) : OnPath g d := by
  induction hruns with
  | refl c => exact hc
  | step hstep _ ih => exact ih ((step_onPath hg hc).2 _ _ hstep)

/-- **No parse ends in an error**: from the table of a grammar, with or without conflicts, no run
over any tokens comes to a configuration that the table does not fit. -/
theorem parse_has_no_error {text : String} (hread : Grammar.read text = .ok g)
    (tokens : List String) :
    (∀ ms d, (ofGrammar g).Runs (.initial tokens) ms d → ∀ e, (ofGrammar g).step d ≠ .fault e) ∧
      ∀ limit e, (ofGrammar g).parseWithin? limit tokens ≠ some (.error e) := by
  have hg := Grammar.proper_of_read hread
  have hruns : ∀ ms d, (ofGrammar g).Runs (.initial tokens) ms d →
      ∀ e, (ofGrammar g).step d ≠ .fault e :=
    fun ms d hd => (step_onPath hg (onPath_run hg (onPath_initial tokens) hd)).1
  refine ⟨hruns, fun limit e herror => ?_⟩
  obtain ⟨ms, d, hd, hfault⟩ := runFrom_error herror
  exact hruns ms d hd e hfault

/-- Names in a row, which can be grouped in any way, with empty groups anywhere. -/
def sequences : Grammar := ⟨"S", ⟨[("S", [["S", "S"], ["a"], []])], by decide⟩⟩

/-- The tokens are a name, the end marker, a nonterminal and a symbol that the grammar lacks. -/
theorem parse_has_no_error_sequences :
    Grammar.read "S ::= S S | a | &" = .ok sequences ∧ (ofGrammar sequences).conflicts ≠ [] ∧
      (∃ o, (ofGrammar sequences).parseWithin? 9 ["a", "$", "S", "?"] = some (.ok o)) ∧
      ∀ limit e,
        (ofGrammar sequences).parseWithin? limit ["a", "$", "S", "?"] ≠ some (.error e) := by
  have hread : Grammar.read "S ::= S S | a | &" = .ok sequences := by decide +kernel
  exact ⟨hread, by decide +kernel, ⟨_, rfl⟩, (parse_has_no_error hread _).2⟩

end ParseTable

end Frontend
