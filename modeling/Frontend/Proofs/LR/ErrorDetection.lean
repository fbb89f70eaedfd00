import Frontend.Proofs.LR.ViablePrefixes

/-!
# Errors are detected at once

A parser with a wrong token ahead may still reduce, but it never shifts this token: it refuses
the input at the first token behind which there is no way to a sentence (`refuses_at_first_error`).
What it has read begins a sentence since the stack spells a viable prefix. That no sentence goes
on with the next token is completeness: a parser that reads this sentence comes to the same
stack, as it sees no more than that token, and would have to refuse as well
(`take_ne_of_refuse`).
-/

namespace Frontend

namespace Grammar

variable {g : Grammar} {ps : List Production} {word : List String}

/-- A word that a rightmost derivation ends with is a sentence. -/
theorem Rightmost.isSentence (hg : g.Proper) (h : g.Rightmost ps [g.start] word)
    (hword : g.NoNonterminals word) : g.IsSentence word := by
  refine ⟨fun s hs => h.derives.isTerminal (fun s hs hn => ?_) s hs (hword s hs), h.derives⟩
  rw [List.mem_singleton.1 hs, hg.start_isNonterminal] at hn
  cases hn

theorem IsSentence.exists_yields (h : g.IsSentence word) : ∃ ps, g.Yields [g.start] word ps :=
  exists_yields_of_derives h.2 (noNonterminals_of_isTerminal h.1)

/-- The end marker is in no sentence. -/
theorem IsSentence.endMarker_not_mem (hg : g.Proper) (h : g.IsSentence word) :
    endMarker ∉ word :=
  fun hmem => hg.not_isTerminal_endMarker (h.1 _ hmem)

end Grammar

namespace ParseTable

variable {g : Grammar} {tokens word : List String} {ms : List ParseMove} {d : Configuration}
  {m : ParseMove}

/-- **No sentence begins like a refused input**, up to the token at which it is refused. -/
theorem take_ne_of_refuse (hg : g.Proper) (hnone : (ofGrammar g).conflicts = [])
    (hruns : (ofGrammar g).Runs (.initial tokens) ms d)
    (hhalt : (ofGrammar g).step d = .halt m false) (hword : g.IsSentence word) :
    (word ++ [endMarker]).take (shiftsOf ms + 1) ≠
      (tokens ++ [endMarker]).take (shiftsOf ms + 1) := by
  intro htake
  obtain ⟨ps, hyields⟩ := hword.exists_yields
  obtain ⟨ns, e, hruns', hhalt', -⟩ := exists_run_of_yields hg hnone hyields
  -- On the sentence the parser makes the same moves and sees the same token then.
  have hsame := hruns.congr_input htake
  have hhead : ((word ++ [endMarker]).drop (shiftsOf ms)).head? = d.input.head? := by
    have hnext := congrArg (fun l => l[shiftsOf ms]?) htake
    simp only [List.getElem?_take, Nat.lt_succ_self, if_true] at hnext
    rw [hruns.input, Configuration.initial, List.head?_drop, List.head?_drop, hnext]
  have hrefuse := step_halt_congr hhalt hhead
  obtain ⟨-, rfl⟩ := hsame.eq_of_halt hrefuse hruns' hhalt'
  cases hrefuse.symm.trans hhalt'

/-- **The first wrong token is where the input is refused**: the tokens shifted begin a sentence,
with the next one they do not, and at the end of the input they are not a sentence themselves.
The last row of the trace shows the input from this token on. -/
theorem refuses_at_first_error {text : String} {limit : Nat} {o : ParseOutcome}
    (hread : Grammar.read text = .ok g) (hproductive : g.Productive)
    (hnone : (ofGrammar g).conflicts = [])
    (hparse : (ofGrammar g).parseWithin? limit tokens = some (.ok o))
    (hrefused : o.accepted = false) :
    o.shifts ≤ tokens.length ∧
      (∃ word, g.IsSentence word ∧ tokens.take o.shifts <+: word) ∧
      (o.shifts < tokens.length →
        ∀ word, g.IsSentence word → ¬ tokens.take (o.shifts + 1) <+: word) ∧
      (o.shifts = tokens.length → ¬ g.IsSentence tokens) ∧
      ∃ n before, o.trace.getLast? = some ⟨n, before, .refuse⟩ ∧
        before.input = tokens.drop o.shifts ++ [endMarker] := by
  have hg := Grammar.proper_of_read hread
  obtain ⟨ms, d, m, hruns, hhalt, -, hshifts, n, hlast⟩ := runFrom_run hparse
  rw [hrefused] at hhalt
  obtain ⟨spelt, v, ps, hps, hv, hderiv, hconsumed, hlength⟩ :=
    hruns.exists_rightmost hg hproductive.noDeadEnds
  have hshifts : o.shifts = shiftsOf ms := by rw [hshifts, Progress.initial, Nat.zero_add]
  rw [hshifts]
  refine ⟨hlength, ⟨_, ?_, List.prefix_append _ v⟩, fun hlt word hword hbegins => ?_,
    fun heq hword => ?_, n, d, ?_, ?_⟩
  · have hword := hps.trans (hderiv.append_right hv)
    exact hword.isSentence hg (Grammar.noNonterminals_append.2 ⟨hconsumed, hv⟩)
  · refine take_ne_of_refuse hg hnone hruns hhalt hword ?_
    obtain ⟨rest, rfl⟩ := hbegins
    have hcut : (tokens.take (shiftsOf ms + 1)).length = shiftsOf ms + 1 :=
      List.length_take_of_le hlt
    rw [List.append_assoc, List.take_append_of_le_length (Nat.le_of_eq hcut.symm),
      List.take_append_of_le_length hlt, List.take_take, Nat.min_self]
  · exact take_ne_of_refuse hg hnone hruns hhalt hword rfl
  · rcases step_eq_halt_iff.1 hhalt with ⟨-, -, hno⟩ | ⟨-, rfl, -⟩
    · cases hno
    · exact hlast
  · rw [hruns.input]
    exact List.drop_append_of_le_length hlength

/-- Brackets of two kinds around the same name. -/
def brackets : Grammar :=
  ⟨"S", ⟨[("S", [["(", "A", ")"], ["[", "A", "]"]]), ("A", [["x"]])], by decide⟩⟩

/-- Before the wrong bracket the parser still reduces, as this bracket can follow the name
elsewhere. -/
theorem refuses_at_first_error_brackets :
    Grammar.read "S ::= ( A ) | [ A ]\nA ::= x" = .ok brackets ∧ brackets.Productive ∧
      (ofGrammar brackets).conflicts = [] ∧
        ∃ o, (ofGrammar brackets).parseWithin? 9 ["(", "x", "]", ")"] = some (.ok o) ∧
          o.accepted = false ∧ o.shifts = 2 ∧ o.reductions = 1 ∧
            (∃ word, brackets.IsSentence word ∧ ["(", "x"] <+: word) ∧
              ∀ word, brackets.IsSentence word → ¬ ["(", "x", "]"] <+: word := by
  have hread : Grammar.read "S ::= ( A ) | [ A ]\nA ::= x" = .ok brackets := by decide +kernel
  have hname : brackets.Derives ["A"] ["x"] :=
    .single (.replace [] [] (p := ⟨"A", ["x"]⟩) (by decide))
  have hround : brackets.Derives ["S"] ["(", "x", ")"] :=
    .head (.replace [] [] (p := ⟨"S", ["(", "A", ")"]⟩) (by decide))
      (.single (.replace ["("] [")"] (p := ⟨"A", ["x"]⟩) (by decide)))
  have hproductive : brackets.Productive := Grammar.productive_iff.2 <|
    List.forall_mem_cons.2
      ⟨⟨_, by decide, hround⟩, List.forall_mem_singleton.2 ⟨_, by decide, hname⟩⟩
  have hnone : (ofGrammar brackets).conflicts = [] := by decide +kernel
  obtain ⟨o, hparse, hrefused, hshifts, hreductions⟩ : ∃ o,
      (ofGrammar brackets).parseWithin? 9 ["(", "x", "]", ")"] = some (.ok o) ∧
        o.accepted = false ∧ o.shifts = 2 ∧ o.reductions = 1 := ⟨_, rfl, rfl, rfl, rfl⟩
  obtain ⟨-, hbegins, hfirst, -⟩ :=
    refuses_at_first_error hread hproductive hnone hparse hrefused
  rw [hshifts] at hbegins hfirst
  exact ⟨hread, hproductive, hnone, o, hparse, hrefused, hshifts, hreductions, hbegins,
    hfirst (by decide)⟩

end ParseTable

end Frontend
