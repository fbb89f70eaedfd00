import Frontend.Regex.Compile
import Frontend.Proofs.Regex.Readability
import Frontend.Proofs.Regex.ShuntingYard

/-!
# The automaton of a pattern accepts what the pattern denotes

A text compiles only if it is read as a pattern, and then what it compiles to is an expression
with the words of that pattern, its positions counted from 1 (`compile_reads`). So the
automaton of a text accepts the words of the pattern and no others
(`accepts_iff_mem_language`).
-/

namespace Frontend.Regex

variable {text token : String} {ts : List Token} {p : Pattern} {t : Tree} {a : Automaton}

/-! ## What compiles is a pattern -/

/-- The tokens of a text are those that it spells; they nest, and there are some. -/
theorem spells_of_tokenize (h : tokenize text = .ok ts) :
    Spells (text.toList.filter fun c => !Text.isBlank c) ts ∧ nests [] ts = true ∧ ts ≠ [] := by
  unfold tokenize at h
  split at h
  · next us hsplit =>
    split at h
    · next hnests =>
      cases h
      rw [Bool.and_eq_true, Bool.not_eq_true', List.isEmpty_eq_false_iff] at hnests
      exact ⟨split?_eq_some_iff.1 hsplit, hnests⟩
    · cases h
  · cases h

/-- Tokens that nest are the tokens of a text that spells them, if there are any. -/
theorem tokenize_of_spells (hspells : Spells (text.toList.filter fun c => !Text.isBlank c) ts)
    (hnests : nests [] ts = true) (hne : ts ≠ []) : tokenize text = .ok ts := by
  rw [tokenize, split?_eq_some_iff.2 hspells]
  dsimp only
  rw [hnests, List.isEmpty_eq_false_iff.2 hne]
  rfl

/-- Concatenation is not written in a text. -/
theorem Spells.ne_concat {cs : List Char} (h : Spells cs ts) : ∀ t ∈ ts, t ≠ .op .concat := by
  have hchar : ∀ c, Token.ofChar c ≠ .op .concat := by
    intro c hc
    unfold Token.ofChar at hc
    split at hc
    · next o ho =>
      cases hc
      exact absurd (List.mem_of_find?_eq_some ho) (by decide)
    · cases hc
  induction h with
  | nil => exact List.forall_mem_nil _
  | escape c _ ih => exact List.forall_mem_cons.2 ⟨nofun, ih⟩
  | dot _ ih => exact ih
  | char _ _ _ ih => exact List.forall_mem_cons.2 ⟨hchar _, ih⟩

/-- The passes that a text that compiles has gone through. -/
theorem exists_passes (h : compile text = .ok t) :
    ∃ ts us vs, tokenize text = .ok ts ∧ checkOperators ts = .ok () ∧ desugar ts = .ok us ∧
      expandClasses us = .ok vs ∧ Tree.ofPostfix (toPostfix (insertConcat vs)) = .ok t := by
  obtain ⟨ts, hts, h⟩ := bind_eq_ok.1 h
  obtain ⟨⟨⟩, hoperators, h⟩ := bind_eq_ok.1 h
  obtain ⟨us, hus, h⟩ := bind_eq_ok.1 h
  obtain ⟨vs, hvs, h⟩ := bind_eq_ok.1 h
  exact ⟨ts, us, vs, hts, hoperators, hus, hvs, h⟩

/-- **A text that compiles is read as a pattern.** -/
theorem exists_readsText (h : compile text = .ok t) : ∃ p, ReadsText text p := by
  obtain ⟨ts, us, vs, hts, hoperators, hus, hvs, -⟩ := exists_passes h
  obtain ⟨hspells, hnests, hne⟩ := spells_of_tokenize hts
  have hclasses := scanClasses_of_desugarFrom hus (exists_expandFrom_iff.1 ⟨vs, hvs⟩)
  obtain ⟨p, hp⟩ := exists_reads ⟨hnests, hoperators, hclasses, hspells.ne_concat⟩ hne
  exact ⟨p, ts, hspells, hp⟩

/-! ## What a pattern compiles to -/

/-- **The passes behind the checks bring every pattern into an expression** with the same words,
its positions counted from 1. -/
theorem Reads.exists_tree (h : Reads .alt ts p) :
    ∃ us vs t, desugar ts = .ok us ∧ expandClasses us = .ok vs ∧
      Tree.ofPostfix (toPostfix (insertConcat vs)) = .ok t ∧ t.Numbered ∧
        t.body.language = p.language := by
  obtain ⟨us, hus, hreads⟩ := desugar_reads h
  obtain ⟨vs, q, hvs, hq, hcore, hlang⟩ := expandClasses_reads hreads p.isSugarFree_desugared
  obtain ⟨e, rfl, he⟩ := Expr.exists_expr hcore 1
  have htree := Expr.ofPostfix_postorder he
  rw [← Expr.postorder_pattern he.plain, ← toPostfix_of_expresses (hq.expresses hcore)] at htree
  refine ⟨us, vs, _, hus, hvs, htree, he.numbered, ?_⟩
  rw [← p.language_desugared, ← hlang, Expr.language_pattern]

/-- **What a pattern compiles to has the words of the pattern**, and its positions are counted
from 1. -/
theorem compile_reads (h : compile text = .ok t) (hp : ReadsText text p) :
    t.Numbered ∧ t.body.language = p.language := by
  obtain ⟨ts, us, vs, hts, -, hus, hvs, htree⟩ := exists_passes h
  obtain ⟨ts', hspells, hreads⟩ := hp
  -- Each pass has one result, so what a reading gives is what the pass gave.
  obtain rfl := hspells.unique (spells_of_tokenize hts).1
  obtain ⟨us', vs', t', hus', hvs', htree', hspec⟩ := hreads.exists_tree
  obtain rfl := Except.ok.inj (hus.symm.trans hus')
  obtain rfl := Except.ok.inj (hvs.symm.trans hvs')
  obtain rfl := Except.ok.inj (htree.symm.trans htree')
  exact hspec

/-- What compiles has its positions counted from 1. -/
theorem numbered_of_compile (h : compile text = .ok t) : t.Numbered := by
  obtain ⟨p, hp⟩ := exists_readsText h
  exact (compile_reads h hp).1

/-! ## Automata of patterns -/

/-- **The automaton of a text accepts what the text denotes.** A text that compiles has a
deterministic automaton and is read as a pattern. However it is read, the words that are accepted
are those of the pattern, and they are reported as the token. -/
theorem accepts_iff_mem_language (token : String) (h : compile text = .ok t) :
    ∃ a, toAutomaton text token = .ok a ∧ a.isDeterministic = true ∧
      (∃ p, ReadsText text p) ∧
      ∀ p, ReadsText text p → ∀ word : String,
        (a.accepts word = true ↔ word.toList ∈ p.language) ∧
          (a.accepts word = true → (a.run word).token = some token) := by
  have hnumbered := numbered_of_compile h
  refine ⟨t.toAutomaton token, ?_, Tree.isDeterministic_toAutomaton hnumbered,
    exists_readsText h, fun p hp word => ⟨?_, Tree.token_toAutomaton hnumbered⟩⟩
  · rw [toAutomaton, h]
    rfl
  · rw [Tree.accepts_toAutomaton hnumbered, (compile_reads h hp).2]

/-- A pattern of signs and digits: blank characters and dots between its parts say nothing. -/
def signedDigits : Pattern :=
  .concat (.optional (.alt (.char '+') (.char '-')))
    (.plus (.charClass [.literal '0', .op .dash, .literal '9']))

theorem readsText_signedDigits : ReadsText "(\\+|\\-)? . [0-9]+" signedDigits := by
  refine ⟨_, split?_eq_some_iff.1 rfl, ?_⟩
  have hsign : Reads .atom _ _ := .group (.alt (Reads.ofAtom_alt (.char '+'))
    (.ofSuffixed (.ofAtom (.char '-'))))
  have hdigit : IsClassBody [.literal '0', .op .dash, .literal '9'] :=
    exists_classMembers_iff.1 ⟨_, rfl⟩
  exact .ofConcat (.concat (.ofSuffixed (.optional hsign)) (.plus (.charClass hdigit)))

theorem accepts_iff_mem_language_signedDigits :
    ∃ t a, compile "(\\+|\\-)? . [0-9]+" = .ok t ∧
      toAutomaton "(\\+|\\-)? . [0-9]+" "NUM" = .ok a ∧ a.isDeterministic = true ∧
      ∀ word : String, (a.accepts word = true ↔ word.toList ∈ signedDigits.language) ∧
        (a.accepts word = true → (a.run word).token = some "NUM") := by
  obtain ⟨t, ht⟩ : ∃ t, compile "(\\+|\\-)? . [0-9]+" = .ok t := ⟨_, rfl⟩
  obtain ⟨a, ha, hdet, -, hlang⟩ := accepts_iff_mem_language "NUM" ht
  exact ⟨t, a, ht, ha, hdet, hlang _ readsText_signedDigits⟩

end Frontend.Regex
