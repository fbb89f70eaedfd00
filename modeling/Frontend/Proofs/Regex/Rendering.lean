import Frontend.Proofs.Regex.Brackets
import Frontend.Proofs.Regex.Characters

/-!
# What is rendered is read back

A literal that would be read as something else is rendered with a backslash before it, and each
token is rendered apart from the others, so rendered tokens are spelled by what is written for them
(`spells_renderChars`). Only the dot of an explicit concatenation spells nothing. Besides, a text is
read only if its brackets nest; a concatenation opens and closes nothing, so they nest with and
without it (`nests_withoutConcat`).

`tokenize_render_spec` says which rendered tokens are read, and as what. What has been read can be
rendered and read again.
-/

namespace Frontend.Regex

variable {ts us : List Token} {t : Token} {cs : List Char} {c : Char}

/-! ## Explicit concatenation -/

/-- All tokens but explicit concatenation. -/
def withoutConcat (ts : List Token) : List Token := ts.filter (· != .op .concat)

theorem withoutConcat_cons (h : t ≠ .op .concat) :
    withoutConcat (t :: ts) = t :: withoutConcat ts :=
  List.filter_cons_of_pos (bne_iff_ne.2 h)

theorem mem_withoutConcat : t ∈ withoutConcat ts ↔ t ∈ ts ∧ t ≠ .op .concat := by
  rw [withoutConcat, List.mem_filter, bne_iff_ne]

theorem withoutConcat_ne_nil : withoutConcat ts ≠ [] ↔ ∃ t ∈ ts, t ≠ .op .concat := by
  constructor
  · intro h
    obtain ⟨t, ht⟩ := List.exists_mem_of_ne_nil _ h
    exact ⟨t, mem_withoutConcat.1 ht⟩
  · intro h
    obtain ⟨t, ht⟩ := h
    exact List.ne_nil_of_mem (mem_withoutConcat.2 ht)

theorem withoutConcat_eq_self (h : ∀ t ∈ ts, t ≠ .op .concat) : withoutConcat ts = ts :=
  List.filter_eq_self.2 fun t ht => bne_iff_ne.2 (h t ht)

theorem withoutConcat_insertConcat (ts : List Token) :
    withoutConcat (insertConcat ts) = withoutConcat ts := by
  fun_induction insertConcat ts with
  | case1 => rfl
  | case2 => rfl
  | case3 t u rest _ ih =>
    simp only [withoutConcat, List.filter_cons] at ih ⊢
    rw [ih]
    rfl
  | case4 t u rest _ ih =>
    simp only [withoutConcat, List.filter_cons] at ih ⊢
    rw [ih]

/-- Tokens that leave open brackets alike do so behind any token. -/
theorem nests_cons_congr (h : ∀ opened, nests opened ts = nests opened us) (t : Token)
    (opened : List Op) : nests opened (t :: ts) = nests opened (t :: us) := by
  rcases t.bracket_cases with hbracket | ⟨o, c, hpair, rfl | rfl⟩
  · rw [nests_cons hbracket, nests_cons hbracket, h]
  · rw [hpair.nests_opening, hpair.nests_opening, h]
  · rw [Bool.eq_iff_iff, hpair.nests_closing_iff, hpair.nests_closing_iff]
    simp only [h]

theorem nests_withoutConcat (ts : List Token) (opened : List Op) :
    nests opened (withoutConcat ts) = nests opened ts := by
  induction ts generalizing opened with
  | nil => rfl
  | cons t ts ih =>
    by_cases ht : t = .op .concat
    · subst ht
      rw [nests_cons rfl]
      exact ih opened
    · rw [withoutConcat_cons ht]
      exact nests_cons_congr ih t opened

/-! ## What is rendered -/

/-- A token spells itself before whatever follows, but a concatenation spells nothing. -/
theorem Spells.render (h : Spells cs ts) (t : Token) :
    Spells (t.render ++ cs) (withoutConcat [t] ++ ts) := by
  cases t with
  | literal d =>
    rw [Token.render]
    split
    · exact .escape d h
    · next hplain =>
      simp only [Bool.or_eq_true, not_or, beq_iff_eq, Bool.not_eq_true, Option.isSome_eq_false_iff,
        Option.isNone_iff_eq_none] at hplain
      obtain ⟨⟨hop, hescape⟩, hdot⟩ := hplain
      have hspells := Spells.char hescape hdot h
      rwa [Token.ofChar, hop] at hspells
  | op o =>
    cases o with
    | concat => exact .dot h
    | _ => exact .char (by decide) (by decide) h

/-- **What is rendered spells the tokens**, explicit concatenation apart. -/
theorem spells_renderChars (ts : List Token) : Spells (renderChars ts) (withoutConcat ts) := by
  induction ts with
  | nil => exact .nil
  | cons t ts ih =>
    have h := ih.render t
    rwa [withoutConcat, withoutConcat, ← List.filter_append] at h

/-- Without blank literals, nothing blank is rendered. -/
theorem not_blank_of_mem_renderChars (hts : ∀ c, .literal c ∈ ts → Text.isBlank c = false)
    (hc : c ∈ renderChars ts) : Text.isBlank c = false := by
  obtain ⟨t, ht, hc⟩ := List.mem_flatMap.1 hc
  cases t with
  | literal d =>
    have hchar : c = '\\' ∨ c = d := by
      rw [Token.render] at hc
      split at hc
      · simpa using hc
      · exact .inr (List.mem_singleton.1 hc)
    rcases hchar with rfl | rfl
    · rfl
    · exact hts c ht
  | op o =>
    rw [List.mem_singleton.1 hc]
    cases o <;> rfl

/-! ## What is read back -/

/-- What is read are the tokens that a text spells, if they nest and there are some. -/
theorem tokenize_eq_ok_iff {text : String} : tokenize text = .ok ts ↔
    Spells (text.toList.filter fun c => !Text.isBlank c) ts ∧ nests [] ts = true ∧ ts ≠ [] :=
  ⟨spells_of_tokenize, fun ⟨hspells, hnests, hne⟩ => tokenize_of_spells hspells hnests hne⟩

/-- **Rendered tokens are read as they were**, explicit concatenation apart, if brackets nest in
them and they are not all concatenations. -/
theorem tokenize_render_iff (hts : ∀ c, .literal c ∈ ts → Text.isBlank c = false) :
    tokenize (render ts) = .ok us ↔
      Balanced ts ∧ (∃ t ∈ ts, t ≠ .op .concat) ∧ us = withoutConcat ts := by
  have hchars : (render ts).toList.filter (fun c => !Text.isBlank c) = renderChars ts := by
    rw [render, String.toList_ofList, List.filter_eq_self]
    intro c hc
    rw [not_blank_of_mem_renderChars hts hc]
    rfl
  have hbalanced : Balanced ts ↔ nests [] (withoutConcat ts) = true := by
    rw [nests_withoutConcat, nests_iff_balanced]
  rw [tokenize_eq_ok_iff, hchars, hbalanced, ← withoutConcat_ne_nil]
  constructor
  · intro h
    obtain ⟨hspells, hrest⟩ := h
    obtain rfl := (spells_renderChars ts).unique hspells
    exact ⟨hrest.1, hrest.2, rfl⟩
  · intro h
    obtain ⟨hnests, hne, rfl⟩ := h
    exact ⟨spells_renderChars ts, hnests, hne⟩

/-- **To make concatenation explicit changes nothing** in what is read back. -/
theorem tokenize_render_insertConcat (hts : ∀ c, .literal c ∈ ts → Text.isBlank c = false) :
    tokenize (render (insertConcat ts)) = .ok us ↔ tokenize (render ts) = .ok us := by
  have hinserted : ∀ c, .literal c ∈ insertConcat ts → Text.isBlank c = false := by
    intro c hc
    have hmem : .literal c ∈ withoutConcat (insertConcat ts) := mem_withoutConcat.2 ⟨hc, nofun⟩
    rw [withoutConcat_insertConcat] at hmem
    exact hts c (mem_withoutConcat.1 hmem).1
  rw [tokenize_render_iff hinserted, tokenize_render_iff hts, ← nests_iff_balanced,
    ← nests_iff_balanced, ← nests_withoutConcat, ← nests_withoutConcat ts,
    ← withoutConcat_ne_nil, ← withoutConcat_ne_nil, withoutConcat_insertConcat]

/-- **Rendering and reading undo each other.** Tokens without blank literals are read from what is
rendered for them exactly if brackets nest in them and they are not all concatenations, and then
without the concatenations; whether concatenation was made explicit before does not matter. What is
read from any text is read again from what is rendered for it. -/
theorem tokenize_render_spec :
    (∀ ts : List Token, (∀ c, .literal c ∈ ts → Text.isBlank c = false) →
      (∀ us, tokenize (render ts) = .ok us ↔
        Balanced ts ∧ (∃ t ∈ ts, t ≠ .op .concat) ∧ us = withoutConcat ts) ∧
      ∀ us, tokenize (render (insertConcat ts)) = .ok us ↔ tokenize (render ts) = .ok us) ∧
    ∀ (text : String) (ts : List Token), tokenize text = .ok ts →
      tokenize (render ts) = .ok ts ∧ tokenize (render (insertConcat ts)) = .ok ts := by
  refine ⟨fun ts hts => ⟨fun us => tokenize_render_iff hts,
    fun us => tokenize_render_insertConcat hts⟩, fun text ts h => ?_⟩
  obtain ⟨hspells, hnests, hne⟩ := spells_of_tokenize h
  have hblank : ∀ c, .literal c ∈ ts → Text.isBlank c = false := fun c => hspells.not_blank
  have hself := withoutConcat_eq_self hspells.ne_concat
  have hwritten : ∃ t ∈ ts, t ≠ .op .concat := withoutConcat_ne_nil.1 (by rwa [hself])
  have hread : tokenize (render ts) = .ok ts :=
    (tokenize_render_iff hblank).2 ⟨nests_iff_balanced.1 hnests, hwritten, hself.symm⟩
  exact ⟨hread, (tokenize_render_insertConcat hblank).2 hread⟩

/-- A literal bracket, backslash and dot are read again between brackets, the concatenation is
not; and a pattern that escapes them is read again from what is rendered for it. -/
theorem tokenize_render_spec_escaped :
    tokenize (render [.op .openParen, .literal '(', .op .concat, .literal '\\', .op .closeParen,
        .op .star, .literal '.']) =
      .ok [.op .openParen, .literal '(', .literal '\\', .op .closeParen, .op .star,
        .literal '.'] ∧
    ∃ ts, tokenize "[a\\]] . \\- b" = .ok ts ∧ tokenize (render (insertConcat ts)) = .ok ts := by
  constructor
  · refine (((tokenize_render_spec.1 _ ?_).1 _).2 ⟨?_, ?_, by decide⟩)
    · intro c hc
      simp only [List.mem_cons, Token.literal.injEq, reduceCtorEq, false_or, List.not_mem_nil,
        or_false] at hc
      rcases hc with rfl | rfl | rfl <;> decide
    · exact nests_iff_balanced.1 (by decide)
    · exact ⟨.op .star, by decide, by decide⟩
  · have hread : tokenize "[a\\]] . \\- b" = .ok [.op .openBracket, .literal 'a', .literal ']',
        .op .closeBracket, .literal '-', .literal 'b'] := by decide
    exact ⟨_, hread, (tokenize_render_spec.2 _ _ hread).2⟩

end Frontend.Regex
