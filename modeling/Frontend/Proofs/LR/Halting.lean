import Frontend.Proofs.LR.ErrorDetection
import Frontend.Proofs.LR.Safety

/-!
# Parses that come to an end

Nothing is counted down while a parser reduces: it can open empty productions one after the
other without reading a token. What bounds the reductions is that they undo a derivation. If the
grammar has no dead ends, then the derivation that a run has undone is part of one of a sentence,
whose accepting run makes as many reductions before it reads on (`exists_run_of_reductions`). That
this run looks at another token than the refused one does not matter, as there are finitely many
tokens to look at (`exists_bound_of_take`). So every parse ends (`parse_ends`).

With dead ends a table without conflicts can drive its parser in circles (`not_parse_ends_endless`):
the follow sets speak of strings that lead to no sentence.
-/

namespace Frontend.ParseTable

variable {g : Grammar} {tokens : List String} {ms : List ParseMove} {d : Configuration}

/-! ## As many reductions on the way to a sentence -/

/-- The string on the stack after a reduction, with the tokens to be read from there to
acceptance, is the one that the remaining reductions derive from the start symbol. -/
theorem exists_spelling_of_accepting {before after : List ParseMove} {n : Nat} {p : Production}
    (hg : g.Proper) (hend : endMarker ∉ tokens)
    (hruns : (ofGrammar g).Runs (.initial tokens) (before ++ .reduce n p :: after) d)
    (hhalt : (ofGrammar g).step d = .halt .accept true) :
    ∃ opened rest, g.isNonterminal p.head = true ∧
      shiftsOf before + rest.length = tokens.length ∧
        g.Rightmost (reductionsOf after).reverse [g.start] (opened ++ p.head :: rest) := by
  obtain ⟨c, hbefore, hrest⟩ := hruns.split
  obtain ⟨spelt, read, rest, hc, rfl, hlength, -, -⟩ := spelling_initial.run hg hbefore
  cases hrest with
  | step hstep hafter =>
    rcases hc.step hg hstep with ⟨r, x, more, hm, -⟩ | ⟨n', p', opened, hm, hp, -, hd⟩
    · cases hm
    · obtain ⟨rfl, rfl⟩ := ParseMove.reduce.inj hm
      obtain ⟨spelt', read', rest', he, rfl, -, -, hderiv⟩ := hd.run hg hafter
      simp only [List.mem_append, not_or] at hend
      obtain ⟨-, rfl, rfl⟩ := he.accept hg hend.2.2 hhalt
      refine ⟨opened, read' ++ [], Grammar.isNonterminal_head hp, ?_, ?_⟩
      · rw [← hlength, ← List.length_append]
      · simpa using hderiv

/-- **As many reductions as a run has made** are made by one on a sentence that begins with the
same tokens, before it reads any other token. -/
theorem exists_run_of_reductions (hg : g.Proper) (hnone : (ofGrammar g).conflicts = [])
    (hends : g.NoDeadEnds) (hruns : (ofGrammar g).Runs (.initial tokens) ms d) :
    ∃ v ns e, g.IsSentence (tokens.take (shiftsOf ms) ++ v) ∧
      (ofGrammar g).Runs (.initial (tokens.take (shiftsOf ms) ++ v)) ns e ∧
        shiftsOf ns ≤ shiftsOf ms ∧ (reductionsOf ms).length ≤ ns.length := by
  obtain ⟨spelt, v, ps, hps, hv, hderiv, hread, hlength⟩ := hruns.exists_rightmost hg hends
  have hword := Grammar.noNonterminals_append.2 ⟨hread, hv⟩
  have hall := hps.trans (hderiv.append_right hv)
  have hsentence := hall.isSentence hg hword
  refine ⟨v, ?_⟩
  rcases List.eq_nil_or_concat (reductionsOf ms) with hnil | ⟨qs, p, hqs⟩
  · exact ⟨[], _, hsentence, .refl _, Nat.zero_le _, by rw [hnil]; exact Nat.le_refl _⟩
  · obtain ⟨moves, e, haccepting, hhalt, hmoves⟩ :=
      exists_run_of_yields hg hnone (hall.yields hword)
    -- The accepting run is cut behind the last of these reductions.
    have hcut : reductionsOf moves = qs ++ p :: ps.reverse := by
      rw [hmoves, hqs]
      simp
    obtain ⟨before, n, after, rfl, rfl, hafter⟩ := exists_of_reductionsOf_eq hcut
    obtain ⟨opened, rest, hp, hrest, hform⟩ := exists_spelling_of_accepting hg
      (hsentence.endMarker_not_mem hg) haccepting hhalt
    rw [hafter, List.reverse_reverse] at hform
    -- There the terminals behind the string on the stack are still to be read.
    have hsuffix := Grammar.suffix_of_append_cons_eq (hps.unique hform) hp hv
    have hle := hsuffix.length_le
    rw [List.length_append, List.length_take_of_le hlength] at hrest
    rw [List.append_cons] at haccepting
    obtain ⟨e', hns, -⟩ := haccepting.split
    refine ⟨before ++ [.reduce n p], e', hsentence, hns, ?_, ?_⟩
    · rw [shiftsOf_append, shiftsOf_reduce, shiftsOf_nil]
      omega
    · rw [hqs, hns.length_eq, reductionsOf_append, reductionsOf_reduce, reductionsOf_nil]
      simp

/-! ## Bounds -/

/-- Runs on sentences that begin with the same symbols are bounded as long as they read no
others. -/
theorem exists_bound_of_window (hg : g.Proper) (hnone : (ofGrammar g).conflicts = []) (k : Nat)
    (window : List String) :
    ∃ bound, ∀ word ms d, g.IsSentence word →
      (word ++ [endMarker]).take (k + 1) = window →
        (ofGrammar g).Runs (.initial word) ms d → shiftsOf ms ≤ k → ms.length ≤ bound := by
  by_cases h : ∃ word, g.IsSentence word ∧ (word ++ [endMarker]).take (k + 1) = window
  · obtain ⟨word, hword, rfl⟩ := h
    obtain ⟨ps, hyields⟩ := hword.exists_yields
    obtain ⟨moves, e, haccepting, hhalt, -⟩ := exists_run_of_yields hg hnone hyields
    refine ⟨moves.length, fun word' ms d _ htake hruns hshifts => ?_⟩
    -- Such a run is one on the sentence chosen, so it is part of its accepting run.
    have htake' := congrArg (List.take (shiftsOf ms + 1)) htake
    rw [List.take_take, List.take_take, Nat.min_eq_left (Nat.succ_le_succ hshifts)] at htake'
    obtain ⟨rest, rfl, -⟩ := haccepting.extends_of_halt hhalt (hruns.congr_input htake'.symm)
    rw [List.length_append]
    exact Nat.le_add_right _ _
  · exact ⟨0, fun word ms d hword htake _ _ => absurd ⟨word, hword, htake⟩ h⟩

/-- **Runs on sentences that begin with the same tokens are bounded** as long as they read no
others: there are finitely many symbols that they can look at next. -/
theorem exists_bound_of_take (hg : g.Proper) (hnone : (ofGrammar g).conflicts = [])
    (front : List String) :
    ∃ bound, ∀ v ms d, g.IsSentence (front ++ v) →
      (ofGrammar g).Runs (.initial (front ++ v)) ms d → shiftsOf ms ≤ front.length →
        ms.length ≤ bound := by
  obtain ⟨bound, hbound⟩ := List.exists_common_bound
    (fun x (_ : x ∈ endMarker :: g.terminals.toList) =>
      exists_bound_of_window hg hnone front.length (front ++ [x]))
    (fun x m n h hle word ms d hword htake hruns hshifts =>
      (h word ms d hword htake hruns hshifts).trans hle)
  refine ⟨bound, fun v ms d hword hruns hshifts => ?_⟩
  -- The symbol behind the common tokens is a terminal or the end marker.
  obtain ⟨x, rest, hx, hmem⟩ : ∃ x rest, v ++ [endMarker] = x :: rest ∧
      x ∈ endMarker :: g.terminals.toList := by
    cases v with
    | nil => exact ⟨_, _, rfl, List.mem_cons_self⟩
    | cons x v =>
      exact ⟨x, v ++ [endMarker], rfl,
        List.mem_cons_of_mem _ (Grammar.mem_terminals_iff.2 (hword.1 x (by simp)))⟩
  refine hbound x hmem _ ms d hword ?_ hruns hshifts
  rw [List.append_assoc, hx, List.take_append]
  simp

/-- Runs on the same tokens are bounded if the grammar has no dead ends. -/
theorem exists_bound_of_noDeadEnds (hg : g.Proper) (hnone : (ofGrammar g).conflicts = [])
    (hends : g.NoDeadEnds) (tokens : List String) :
    ∃ bound, ∀ ms d, (ofGrammar g).Runs (.initial tokens) ms d → ms.length ≤ bound := by
  obtain ⟨bound, hbound⟩ := List.exists_common_bound
    (fun k (_ : k ∈ List.range (tokens.length + 1)) => exists_bound_of_take hg hnone (tokens.take k))
    (fun k m n h hle v ms d hword hruns hshifts => (h v ms d hword hruns hshifts).trans hle)
  refine ⟨tokens.length + bound, fun ms d hruns => ?_⟩
  obtain ⟨-, -, -, -, -, -, -, hlength⟩ := hruns.exists_rightmost hg hends
  obtain ⟨v, ns, e, hword, hruns', hshifts, hle⟩ := exists_run_of_reductions hg hnone hends hruns
  rw [← List.length_take_of_le hlength] at hshifts
  have hns := hbound (shiftsOf ms) (List.mem_range.2 (Nat.lt_succ_of_le hlength)) v ns e hword
    hruns' hshifts
  rw [hruns.length_eq]
  omega

/-! ## The end of a parse -/

/-- **Every parse comes to an end** if the table has no conflict and the grammar no dead ends,
whether the tokens are a sentence or not. -/
theorem parse_ends {text : String} (hread : Grammar.read text = .ok g)
    (hnone : (ofGrammar g).conflicts = []) (hends : g.NoDeadEnds) (tokens : List String) :
    ∃ limit o, ∀ more ≥ limit, (ofGrammar g).parseWithin? more tokens = some (.ok o) := by
  have hg := Grammar.proper_of_read hread
  obtain ⟨bound, hbound⟩ := exists_bound_of_noDeadEnds hg hnone hends tokens
  cases hparse : (ofGrammar g).parseWithin? (bound + 1) tokens with
  | none =>
    obtain ⟨ms, d, hruns, hlength⟩ := exists_run_of_runFrom_eq_none hparse
    have hle := hbound ms d hruns
    omega
  | some r =>
    cases r with
    | error e =>
      obtain ⟨ms, d, hruns, hfault⟩ := runFrom_error hparse
      exact absurd hfault ((step_onPath hg (onPath_run hg (onPath_initial tokens) hruns)).1 e)
    | ok o => exact ⟨bound + 1, o, fun more hmore => runFrom_mono hmore hparse⟩

/-- A bracket too many is refused. -/
theorem parse_ends_nested :
    Grammar.read "S ::= a S b |" = .ok nested ∧ (ofGrammar nested).conflicts = [] ∧
      nested.NoDeadEnds ∧
        ∃ limit o, ∀ more ≥ limit,
          (ofGrammar nested).parseWithin? more ["a", "b", "b"] = some (.ok o) := by
  have hread : Grammar.read "S ::= a S b |" = .ok nested := by decide +kernel
  have hnone : (ofGrammar nested).conflicts = [] := by decide +kernel
  have hempty : nested.Derives ["S"] [] := .single (.replace [] [] (p := ⟨"S", []⟩) (by decide))
  have hproductive : nested.Productive := Grammar.productive_iff.2 <|
    List.forall_mem_singleton.2 ⟨_, by decide, hempty⟩
  exact ⟨hread, hnone, hproductive.noDeadEnds,
    parse_ends hread hnone hproductive.noDeadEnds _⟩

/-! ## A parse without end -/

/-- The start symbol can lead to `U`, from which no word is derived. -/
def endless : Grammar :=
  ⟨"S", ⟨[("S", [["U"], ["b", "A", "x"]]), ("U", [["A", "U"]]), ("A", [[]])], by decide⟩⟩

/-- **A table without conflicts whose parser never stops**: `x` begins no sentence, but it can
follow `A`, and the parser opens one empty `A` behind the other. -/
theorem not_parse_ends_endless :
    Grammar.read "S ::= U | b A x\nU ::= A U\nA ::=" = .ok endless ∧
      (ofGrammar endless).conflicts = [] ∧
        ∀ limit, (ofGrammar endless).parseWithin? limit ["x"] = none := by
  refine ⟨by decide +kernel, by decide +kernel, fun limit => ?_⟩
  -- In the first state and behind each `A` the table does the same.
  have hreduce : ∀ q ∈ [0, 4], (ofGrammar endless).action? q "x" = some (.reduce 4) := by
    decide +kernel
  have hgoto : ∀ q ∈ [0, 4], (ofGrammar endless).action? q "A" = some (.goto 4) := by
    decide +kernel
  have hempty : (ofGrammar endless).productions[4]? = some ⟨"A", []⟩ := by decide +kernel
  refine runFrom_eq_none
    (p := fun c => ∃ q ∈ [0, 4], ∃ below, c = ⟨q :: below, ["x", endMarker]⟩) ?_ _ limit
    ⟨0, by simp, [], rfl⟩
  rintro c ⟨q, hq, below, rfl⟩
  exact ⟨_, _, step_eq_proceed_iff.2 (.inr ⟨4, ⟨"A", []⟩, 4, hreduce q hq, hempty,
    Nat.succ_pos _, hgoto q hq, rfl, rfl⟩), 4, by simp, q :: below, rfl⟩

end Frontend.ParseTable
