import Frontend.Proofs.LR.Completeness
import Frontend.Proofs.LR.Soundness

/-!
# Ambiguity shows in conflicts

A table without conflicts leads a parser along every derivation of a word, and a parser has no
choice. So there is one derivation only (`eq_of_yields`), and the table of a grammar with two of
them has a conflict (`conflicts_ne_nil_of_ambiguous`).

A rightmost derivation is given by its productions, which determine the strings on its way.
-/

namespace Frontend

/-- Some word has two rightmost derivations from the start symbol. -/
def Grammar.Ambiguous (g : Grammar) : Prop :=
  ∃ word ps qs, g.NoNonterminals word ∧ g.Rightmost ps [g.start] word ∧
    g.Rightmost qs [g.start] word ∧ ps ≠ qs

namespace ParseTable

variable {g : Grammar} {word : List String} {ps qs : List Production}

/-- Without conflicts a word is derived in one way only: the run on it comes to one halt. -/
theorem eq_of_yields (hg : g.Proper) (hnone : (ofGrammar g).conflicts = [])
    (h : g.Yields [g.start] word ps) (h' : g.Yields [g.start] word qs) : ps = qs := by
  obtain ⟨ms, d, hruns, hhalt, hms⟩ := exists_run_of_yields hg hnone h
  obtain ⟨ns, e, hruns', hhalt', hns⟩ := exists_run_of_yields hg hnone h'
  obtain ⟨rfl, -⟩ := hruns.eq_of_halt hhalt hruns' hhalt'
  exact List.reverse_injective (hms.symm.trans hns)

/-- **No ambiguity goes unrecorded**: if some word has two rightmost derivations, then the table
of the grammar has a conflict. -/
theorem conflicts_ne_nil_of_ambiguous {text : String} (hread : Grammar.read text = .ok g)
    (hambiguous : g.Ambiguous) : (ofGrammar g).conflicts ≠ [] := by
  intro hnone
  obtain ⟨word, ps, qs, hword, hps, hqs, hne⟩ := hambiguous
  exact hne (eq_of_yields (Grammar.proper_of_read hread) hnone (hps.yields hword)
    (hqs.yields hword))

/-- Of three names the first two or the last two can be added first. -/
theorem conflicts_ne_nil_of_ambiguous_sum :
    Grammar.read "E ::= E + E | n" = .ok sums ∧ sums.Ambiguous ∧
      (ofGrammar sums).conflicts ≠ [] := by
  have hread : Grammar.read "E ::= E + E | n" = .ok sums := by decide +kernel
  have hsum : (⟨"E", ["E", "+", "E"]⟩ : Production) ∈ sums.productions := by decide
  have hname : (⟨"E", ["n"]⟩ : Production) ∈ sums.productions := by decide
  have hnil : sums.NoNonterminals [] := by decide
  have hlast : sums.NoNonterminals ["+", "n"] := by decide
  -- What both derivations end with.
  have hend : sums.Rightmost [⟨"E", ["n"]⟩, ⟨"E", ["n"]⟩] ["E", "+", "E", "+", "n"]
      ["n", "+", "n", "+", "n"] :=
    @Grammar.Rightmost.step sums ["E", "+"] ["+", "n"] _ _ _ hname hlast
      (@Grammar.Rightmost.step sums [] ["+", "n", "+", "n"] _ _ _ hname (by decide) (.refl _))
  have hambiguous : sums.Ambiguous := by
    refine ⟨["n", "+", "n", "+", "n"],
      [⟨"E", ["E", "+", "E"]⟩, ⟨"E", ["E", "+", "E"]⟩, ⟨"E", ["n"]⟩, ⟨"E", ["n"]⟩, ⟨"E", ["n"]⟩],
      [⟨"E", ["E", "+", "E"]⟩, ⟨"E", ["n"]⟩, ⟨"E", ["E", "+", "E"]⟩, ⟨"E", ["n"]⟩, ⟨"E", ["n"]⟩],
      by decide, ?_, ?_, by decide⟩
    · exact @Grammar.Rightmost.step sums [] [] _ _ _ hsum hnil
        (@Grammar.Rightmost.step sums ["E", "+"] [] _ _ _ hsum hnil
          (@Grammar.Rightmost.step sums ["E", "+", "E", "+"] [] _ _ _ hname hnil hend))
    · exact @Grammar.Rightmost.step sums [] [] _ _ _ hsum hnil
        (@Grammar.Rightmost.step sums ["E", "+"] [] _ _ _ hname hnil
          (@Grammar.Rightmost.step sums [] ["+", "n"] _ _ _ hsum hlast hend))
  exact ⟨hread, hambiguous, conflicts_ne_nil_of_ambiguous hread hambiguous⟩

end ParseTable

end Frontend
