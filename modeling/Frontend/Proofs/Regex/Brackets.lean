import Frontend.Proofs.Regex.Operands

/-!
# Brackets that nest

What it means that brackets nest is said by a grammar (`Balanced`), which the check with a stack of
open brackets decides (`nests_iff_balanced`). Balanced tokens leave the stack as it is
(`Balanced.nests_append`). The other way round, tokens that pass the check begin with a group or a
token that is no bracket, since a bracket that is open is closed (`exists_closing`), and what is
behind the group is shorter.
-/

namespace Frontend.Regex

variable {ts us : List Token} {o c : Op} {opened outside : List Op}

/-- Every bracket that is opened is closed by its own kind, around tokens in which brackets nest
too. -/
inductive Balanced : List Token → Prop
  | nil : Balanced []
  | token {t : Token} {ts : List Token} (ht : t.isBracket = false) (h : Balanced ts) :
    Balanced (t :: ts)
  | group {o c : Op} {ts us : List Token} (hpair : Closes o c) (h : Balanced ts)
    (h' : Balanced us) : Balanced (.op o :: (ts ++ .op c :: us))

namespace Balanced

theorem of_forall (h : ∀ t ∈ ts, t.isBracket = false) : Balanced ts := by
  induction ts with
  | nil => exact .nil
  | cons t ts ih =>
    obtain ⟨ht, hts⟩ := List.forall_mem_cons.1 h
    exact .token ht (ih hts)

theorem append (h : Balanced ts) (h' : Balanced us) : Balanced (ts ++ us) := by
  induction h with
  | nil => exact h'
  | token ht _ ih => exact .token ht ih
  | group hpair h _ _ ih =>
    rw [List.cons_append, List.append_assoc, List.cons_append]
    exact .group hpair h ih

/-- Balanced tokens leave the open brackets as they are. -/
theorem nests_append (h : Balanced ts) (opened : List Op) (rest : List Token) :
    nests opened (ts ++ rest) = nests opened rest := by
  induction h generalizing opened rest with
  | nil => rfl
  | token ht _ ih => exact (nests_cons ht).trans (ih opened rest)
  | group hpair _ _ ih ih' =>
    rw [List.cons_append, List.append_assoc, List.cons_append, hpair.nests_opening, ih,
      hpair.nests_closing, ih']

end Balanced

/-- **A bracket that is open is closed**, and brackets nest up to there, apart from those that were
opened later. -/
theorem exists_closing (opened : List Op) (hpair : Closes o c)
    (h : nests (opened ++ o :: outside) ts = true) :
    ∃ inner rest, ts = inner ++ .op c :: rest ∧ nests opened inner = true ∧
      nests outside rest = true := by
  induction ts generalizing opened with
  | nil => cases opened <;> cases h
  | cons t ts ih =>
    rcases t.bracket_cases with hbracket | ⟨o', c', hpair', rfl | rfl⟩
    · obtain ⟨inner, rest, rfl, hinner, hrest⟩ := ih _ (nests_of_cons h hbracket)
      exact ⟨t :: inner, rest, rfl, (nests_cons hbracket).trans hinner, hrest⟩
    · rw [hpair'.nests_opening] at h
      obtain ⟨inner, rest, rfl, hinner, hrest⟩ := ih (o' :: opened) h
      exact ⟨.op o' :: inner, rest, rfl, hpair'.nests_opening.trans hinner, hrest⟩
    · obtain ⟨after, hafter, hts⟩ := hpair'.nests_closing_iff.1 h
      cases opened with
      | nil =>
        obtain ⟨rfl, rfl⟩ := List.cons.inj hafter
        have hsame : c = c' := by
          cases hpair <;> cases hpair' <;> rfl
        exact ⟨[], ts, by rw [hsame]; rfl, rfl, hts⟩
      | cons last opened =>
        obtain ⟨rfl, rfl⟩ := List.cons.inj hafter
        obtain ⟨inner, rest, rfl, hinner, hrest⟩ := ih _ hts
        exact ⟨.op c' :: inner, rest, rfl, hpair'.nests_closing.trans hinner, hrest⟩

/-- Tokens in which brackets nest fall into groups: what is left behind a group is shorter. -/
theorem balanced_of_nests (h : nests [] ts = true) : Balanced ts := by
  induction hlength : ts.length using Nat.strong_induction_on generalizing ts with
  | _ length ih =>
    subst hlength
    cases ts with
    | nil => exact .nil
    | cons t ts =>
      rcases t.bracket_cases with hbracket | ⟨o, c, hpair, rfl | rfl⟩
      · exact .token hbracket (ih _ (Nat.lt_succ_self _) (nests_of_cons h hbracket) rfl)
      · rw [hpair.nests_opening] at h
        obtain ⟨inner, rest, rfl, hinner, hrest⟩ := exists_closing [] hpair h
        rw [List.length_cons, List.length_append, List.length_cons] at ih
        exact .group hpair (ih _ (by omega) hinner rfl) (ih _ (by omega) hrest rfl)
      · obtain ⟨outer, hnone, -⟩ := hpair.nests_closing_iff.1 h
        cases hnone

/-- **The check on brackets accepts the balanced tokens.** -/
theorem nests_iff_balanced : nests [] ts = true ↔ Balanced ts := by
  refine ⟨balanced_of_nests, fun h => ?_⟩
  have hnests := h.nests_append [] []
  rwa [List.append_nil] at hnests

end Frontend.Regex
