import Frontend.Proofs.Grammar.Derivation
import Frontend.Proofs.Lists

/-!
# Strings on the way of a rightmost derivation

A rightmost derivation rewrites the last nonterminal of a string, which stands in one place
only (`eq_of_append_cons_eq`). So its productions determine every string on its way
(`Rightmost.unique`). A nonterminal of such a string has stood there from the beginning, or the
body of a production brought it in (`Rightmost.origin`): what stands before it is not rewritten
as long as it is there.

A grammar has no dead ends if a word of terminals can be derived from every string that the
start symbol derives (`NoDeadEnds`). It has none if every nonterminal derives such a word
(`Productive.noDeadEnds`).
-/

namespace Frontend.Grammar

variable {g : Grammar} {ps qs : List Production} {ss ts us : List String}

/-! ## The last nonterminal -/

/-- Terminals at the end of a string stand behind each of its nonterminals. -/
theorem suffix_of_append_cons_eq {before after front word : List String} {s : String}
    (h : front ++ word = before ++ s :: after) (hs : g.isNonterminal s = true)
    (hword : g.NoNonterminals word) : word <:+ after := by
  rcases List.append_eq_append_cons_iff.1 h with ⟨mid, -, rfl⟩ | ⟨mid, -, rfl⟩
  · exact List.suffix_append mid word
  · have hs' := hword s (by simp)
    rw [hs] at hs'
    cases hs'

/-- The last nonterminal of a string stands in one place. -/
theorem eq_of_append_cons_eq {before after before' after' : List String} {s s' : String}
    (h : before ++ s :: after = before' ++ s' :: after') (hs : g.isNonterminal s = true)
    (hs' : g.isNonterminal s' = true) (hafter : g.NoNonterminals after)
    (hafter' : g.NoNonterminals after') : before = before' ∧ after = after' := by
  have hcut : (before' ++ [s']) ++ after' = before ++ s :: after := by
    rw [h, List.append_assoc, List.singleton_append]
  have hcut' : (before ++ [s]) ++ after = before' ++ s' :: after' := by
    rw [← h, List.append_assoc, List.singleton_append]
  have hsuffix := suffix_of_append_cons_eq hcut hs hafter'
  have hsuffix' := suffix_of_append_cons_eq hcut' hs' hafter
  obtain rfl := hsuffix.eq_of_length_le hsuffix'.length_le
  exact ⟨List.append_inj_left' h rfl, rfl⟩

/-! ## One step and the rest -/

namespace Rightmost

theorem eq_of_nil (h : g.Rightmost [] ss ts) : ts = ss := by
  cases h
  rfl

theorem exists_of_cons {p : Production} (h : g.Rightmost (p :: ps) ss ts) :
    ∃ before after, ss = before ++ p.head :: after ∧ p ∈ g.productions ∧
      g.NoNonterminals after ∧ g.Rightmost ps (before ++ p.body ++ after) ts := by
  cases h with
  | step hp hafter rest => exact ⟨_, _, rfl, hp, hafter, rest⟩

/-- **The productions determine the string** that a rightmost derivation comes to. -/
theorem unique (h : g.Rightmost ps ss ts) (h' : g.Rightmost ps ss us) : ts = us := by
  induction h with
  | refl ss => exact h'.eq_of_nil.symm
  | step hp hafter _ ih =>
    obtain ⟨before, after, heq, -, hafter', rest⟩ := h'.exists_of_cons
    have hhead := isNonterminal_head hp
    obtain ⟨rfl, rfl⟩ := eq_of_append_cons_eq heq hhead hhead hafter hafter'
    exact ih rest

/-- **Where a nonterminal comes from**: it stood in its place from the beginning, or the body of
a production brought it in, in a string that is derived in fewer steps. -/
theorem origin {front word : List String} {s : String} (h : g.Rightmost ps ss ts)
    (hts : ts = front ++ s :: word) (hs : g.isNonterminal s = true) :
    (∃ rest, ss = front ++ s :: rest) ∨
      ∃ qs p α β before after, qs.length < ps.length ∧
        g.Rightmost qs ss (before ++ p.head :: after) ∧ g.NoNonterminals after ∧
          p ∈ g.productions ∧ p.body = α ++ s :: β ∧ front = before ++ α := by
  induction h with
  | refl ss => exact .inl ⟨word, hts⟩
  | @step before after ts p ps hp hafter rest ih =>
    rcases ih hts with ⟨tail, heq⟩ | ⟨qs, p', α, β, before', after', hlt, hqs, h⟩
    · rw [List.append_assoc] at heq
      -- The symbol stands before the body of this step or in it, as terminals come after.
      rcases List.append_eq_append_cons_iff.1 heq with ⟨mid, rfl, -⟩ | ⟨α, rfl, hcut⟩
      · exact .inl ⟨mid ++ p.head :: after, by simp⟩
      · rcases List.append_eq_append_cons_iff.1 hcut with ⟨β, hbody, -⟩ | ⟨mid, -, rfl⟩
        · exact .inr ⟨[], p, α, β, before, after, by simp, .refl _, hafter, hp, hbody, rfl⟩
        · have hs' := hafter s (by simp)
          rw [hs] at hs'
          cases hs'
    · exact .inr ⟨p :: qs, p', α, β, before', after', Nat.succ_lt_succ hlt,
        .step hp hafter hqs, h⟩

end Rightmost

/-! ## Dead ends -/

/-- Every nonterminal derives a word of terminals. -/
def Productive (g : Grammar) : Prop :=
  ∀ s, g.isNonterminal s = true → ∃ word, g.NoNonterminals word ∧ g.Derives [s] word

/-- Every string that the start symbol derives derives a word of terminals. -/
def NoDeadEnds (g : Grammar) : Prop :=
  ∀ ss, g.Derives [g.start] ss → ∃ word, g.NoNonterminals word ∧ g.Derives ss word

theorem productive_iff :
    g.Productive ↔ ∀ s ∈ g.nonterminals, ∃ word, g.NoNonterminals word ∧ g.Derives [s] word := by
  simp only [Productive, isNonterminal_iff]

/-- If every nonterminal derives a word, then so does every string of symbols. -/
theorem Productive.exists_yields (h : g.Productive) (ss : List String) :
    ∃ word ps, g.Yields ss word ps := by
  induction ss with
  | nil => exact ⟨[], [], .nil⟩
  | cons s ss ih =>
    obtain ⟨v, qs, hv⟩ := ih
    cases hs : g.isNonterminal s with
    | false => exact ⟨s :: v, qs, .terminal hs hv⟩
    | true =>
      obtain ⟨u, hu, hderives⟩ := h s hs
      obtain ⟨ps, hyields⟩ := exists_yields_of_derives hderives hu
      exact ⟨u ++ v, qs ++ ps, hyields.append hv⟩

theorem Productive.noDeadEnds (h : g.Productive) : g.NoDeadEnds := by
  intro ss _
  obtain ⟨word, ps, hyields⟩ := h.exists_yields ss
  exact ⟨word, hyields.noNonterminals, hyields.rightmost.derives⟩

/-- Each part of a string that the start symbol derives yields a word. -/
theorem NoDeadEnds.exists_yields {front rest : List String} (h : g.NoDeadEnds)
    (hderives : g.Derives [g.start] (front ++ rest)) : ∃ word ps, g.Yields rest word ps := by
  obtain ⟨word, hword, hderives⟩ := h _ hderives
  obtain ⟨ps, hyields⟩ := exists_yields_of_derives hderives hword
  obtain ⟨-, v, -, rs, -, -, -, hrest⟩ := hyields.split
  exact ⟨v, rs, hrest⟩

end Frontend.Grammar
