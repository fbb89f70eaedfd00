import Frontend.Proofs.Automaton.Accessible
import Frontend.Proofs.Automaton.RoundTrip
import Frontend.Proofs.Lexer.Classification
import Frontend.Proofs.Regex.Characters
import Frontend.Proofs.Text.Digits

/-!
# Lexers that are written and read back

The names of definitions can be written (`Definitions.isWritable_of_read`), a lexer knows no
blank character and has no states but those that words lead to (`Lexer.sound_ofDefinitions`). So
the automaton of a lexer is always written, and reading it back gives a lexer that classifies
every word alike, provided that the lexer knows any character at all. One that knows none has
a blank last header line, which is not found again (`Lexer.reload`).
-/

namespace Frontend

open Automaton (isWritable isWritable_iff LineFault countLimit)

/-! ## Names of definitions -/

/-- A name goes on with letters, digits and underscores only. -/
theorem Definition.not_blank_of_continuesName {c : Char} (h : continuesName c = true) :
    c ≠ ',' ∧ Text.isBlank c = false := by
  refine ⟨fun hc => absurd (hc ▸ h) (by decide), ?_⟩
  rcases Bool.or_eq_true_iff.1 h with h | h
  · exact Text.isBlank_of_isAlphanum h
  · rw [eq_of_beq h]
    decide

/-- A name is a text that a name can consist of, and not empty. -/
def Definition.IsName (name : String) : Prop :=
  name.toList ≠ [] ∧ ∀ c ∈ name.toList, continuesName c = true

theorem Definition.isName_of_ofLine {n : Nat} {line : List Char} {d : Definition}
    (h : Definition.ofLine n line = .ok d) : IsName d.name := by
  rw [ofLine] at h
  split at h
  · next name pattern hsplit =>
    cases h
    rw [IsName, String.toList_ofList]
    unfold split? at hsplit
    split at hsplit
    · cases hsplit
    · next c rest =>
      split at hsplit
      · next hstart =>
        have hfirst : continuesName c = true := by
          rcases Bool.or_eq_true_iff.1 hstart with hc | hc
          · exact Bool.or_eq_true_iff.2 (.inl (Bool.or_eq_true_iff.2 (.inl hc)))
          · exact Bool.or_eq_true_iff.2 (.inr hc)
        split at hsplit
        · cases hsplit
          refine ⟨?_, fun c hc => List.mem_takeWhile_imp hc⟩
          rw [List.takeWhile_cons_of_pos hfirst]
          exact List.cons_ne_nil _ _
        · cases hsplit
      · cases hsplit
  · cases h

theorem Definitions.isName_of_addLines {lines : List (Nat × List Char)} {ds es : Definitions}
    (hds : ∀ token ∈ ds.tokens, Definition.IsName token) (h : ds.addLines lines = .ok es) :
    ∀ token ∈ es.tokens, Definition.IsName token := by
  induction lines generalizing ds with
  | nil =>
    cases h
    exact hds
  | cons line lines ih =>
    rw [addLines] at h
    split at h
    · exact ih hds h
    · obtain ⟨d, hd, h⟩ := bind_eq_ok.1 h
      split at h
      · cases h
      · next hnew =>
        refine ih (fun token htoken => ?_) h
        rw [tokens, add, List.map_append, List.mem_append] at htoken
        rcases htoken with htoken | htoken
        · exact hds token htoken
        · rw [List.mem_singleton.1 htoken]
          exact Definition.isName_of_ofLine hd

/-- The names of definitions consist of letters, digits and underscores. -/
theorem Definitions.isName_of_read {text : String} {ds : Definitions}
    (h : Definitions.read text = .ok ds) : ∀ token ∈ ds.tokens, Definition.IsName token := by
  have hempty : ∀ token ∈ Definitions.tokens ∅, Definition.IsName token := List.forall_mem_nil _
  exact isName_of_addLines hempty h

/-- **The names of definitions can be written** as names of states. -/
theorem Definitions.isWritable_of_read {text : String} {ds : Definitions}
    (h : Definitions.read text = .ok ds) : ∀ token ∈ ds.tokens, isWritable token = true := by
  intro token htoken
  obtain ⟨hne, hchars⟩ := isName_of_read h token htoken
  exact isWritable_iff.2
    ⟨hne, fun c hc => Definition.not_blank_of_continuesName (hchars c hc)⟩

/-- The automata of definitions know no blank characters. -/
theorem Definitions.not_blank_of_mem_alphabet {ds : Definitions} {as : List Automaton}
    (h : ds.automata = .ok as) : ∀ a ∈ as, ∀ c ∈ a.alphabet, Text.isBlank c = false := by
  obtain ⟨hlength, hcompiled⟩ := forall_compiled h
  intro a ha c hc
  rw [← List.map_snd_zip hlength.le] at ha
  obtain ⟨e, he, rfl⟩ := List.mem_map.1 ha
  obtain ⟨pattern, t, -, ht, htree⟩ := hcompiled e he
  rw [htree] at hc
  exact Regex.not_blank_of_mem_alphabet ht hc

namespace Lexer

variable {ds : Definitions} {lexer : Lexer}

/-! ## What every lexer fulfils -/

/-- The automaton of a lexer can be written and is known from what is written. -/
structure Sound (lexer : Lexer) : Prop where
  selfContained : lexer.automaton.SelfContained
  isDeterministic : lexer.automaton.isDeterministic = true
  accessible : lexer.automaton.Accessible
  not_blank : ∀ c ∈ lexer.automaton.alphabet, Text.isBlank c = false
  writable : ∀ token ∈ lexer.automaton.tokens.values, isWritable token = true

section Union

variable {all : Automaton} (hwf : all.WellFormed)
  (h : lexer.automaton = (all.determinize ds.tokens).canonical)

include hwf h

/-- The automaton of a lexer is the subset construction under other names. -/
theorem renamedBy_automaton :
    ∃ f, (all.determinize ds.tokens).RenamedBy lexer.automaton f :=
  ⟨_, h ▸ Automaton.renamedBy_canonical (Automaton.wellFormed_determinize hwf.selfContained)⟩

/-- A lexer has no tokens but those that some word is recognised as. -/
theorem exists_recognizes_of_mem_tokens {token : String}
    (htoken : token ∈ lexer.automaton.tokens.values) : ∃ w, all.Recognizes w token := by
  have hdeterminize : (all.determinize ds.tokens).WellFormed :=
    Automaton.wellFormed_determinize hwf.selfContained
  obtain ⟨f, hrenamed⟩ := renamedBy_automaton hwf h
  obtain ⟨⟨s, token⟩, hmem, rfl⟩ := List.mem_map.1 htoken
  obtain ⟨r, hr, hget, -⟩ := hrenamed.tokens.1 (OrdMap.mem_toList_iff.1 hmem)
  obtain ⟨w, hpath⟩ := Automaton.accessible_determinize hwf.selfContained ds.tokens r
    (hdeterminize.finals_subset r hr)
  have hrun := Automaton.token_run_of_path
    (Automaton.isDeterministic_determinize hwf.selfContained) hr hpath hget
  rw [Automaton.token_run_determinize hwf.selfContained] at hrun
  obtain ⟨hmem, -⟩ := Automaton.preferredToken_eq_some hrun
  exact ⟨_, Automaton.mem_tokens_iff.1 hmem⟩

/-- A lexer is sound if its tokens can be written and it knows no blank character. -/
theorem sound_of_union (hblank : ∀ c ∈ all.alphabet, Text.isBlank c = false)
    (hwritable : ∀ w token, all.Recognizes w token → isWritable token = true) :
    lexer.Sound := by
  have hdeterminize : (all.determinize ds.tokens).WellFormed :=
    Automaton.wellFormed_determinize hwf.selfContained
  have halphabet : lexer.automaton.alphabet = all.alphabet := by
    rw [h]
    rfl
  obtain ⟨f, hrenamed⟩ := renamedBy_automaton hwf h
  constructor
  case selfContained => exact hrenamed.selfContained hdeterminize.selfContained halphabet
  case isDeterministic =>
    rw [h]
    exact Automaton.isDeterministic_rename
      (Automaton.isDeterministic_determinize hwf.selfContained)
  case accessible =>
    exact hrenamed.accessible hdeterminize.selfContained
      (Automaton.accessible_determinize hwf.selfContained ds.tokens)
  case not_blank => exact halphabet ▸ hblank
  case writable =>
    intro token htoken
    obtain ⟨w, hw⟩ := exists_recognizes_of_mem_tokens hwf h htoken
    exact hwritable w token hw

end Union

/-- **Every lexer of definitions that were read is sound.** -/
theorem sound_ofDefinitions {text : String} (hread : Definitions.read text = .ok ds)
    (h : ofDefinitions ds = .ok lexer) : lexer.Sound := by
  obtain ⟨as, all, has, hall, hlexer, hwf, hrecognizes⟩ := exists_wellFormed_unionAll h
  refine sound_of_union hwf hlexer (fun c hc => ?_) fun w token hw => ?_
  · obtain ⟨a, ha, hc⟩ := (Automaton.mem_alphabet_unionAll hall).1 hc
    exact Definitions.not_blank_of_mem_alphabet has a ha c hc
  · exact Definitions.isWritable_of_read hread token (hrecognizes w token hw)

/-! ## Writing and reading back -/

namespace Sound

variable (hs : lexer.Sound)

include hs

theorem newline_not_mem : ¬ '\n' ∈ lexer.automaton.alphabet :=
  fun hmem => absurd (hs.not_blank _ hmem) (by decide)

theorem write_eq_ok :
    lexer.automaton.write = .ok (Text.unlines lexer.automaton.listing.lines) :=
  Automaton.write_eq_ok_iff.2 ⟨hs.writable, rfl⟩

/-- A lexer that knows a character is read back. -/
theorem exists_read (hsize : lexer.automaton.states.size < countLimit)
    (halphabet : ∃ c, c ∈ lexer.automaton.alphabet) :
    ∃ a, Automaton.read (Text.unlines lexer.automaton.listing.lines) = .ok a ∧
      a.states.size = lexer.automaton.states.size ∧ a.finals.size = lexer.automaton.finals.size ∧
      ∀ word, classify ⟨a⟩ word = lexer.classify word := by
  have hrenamed := Automaton.renamedBy_listing hs.selfContained fun _ => hs.accessible.mentions
  obtain ⟨hstates, hfinals⟩ := hrenamed.size_eq hs.selfContained
  refine ⟨lexer.automaton.listing.automaton, ?_, hstates, hfinals, fun word => ?_⟩
  · exact Automaton.read_write_listing hs.selfContained hs.write_eq_ok hs.newline_not_mem hsize
      (.inr (halphabet.imp fun c hc => ⟨hc, hs.not_blank c hc⟩))
  · rw [classify, classify, hrenamed.run_eq hs.selfContained hs.isDeterministic]

/-- A lexer that knows no character is not read back. -/
theorem exists_error (hsize : lexer.automaton.states.size < countLimit)
    (halphabet : ∀ c, ¬ c ∈ lexer.automaton.alphabet) :
    ∃ line, Automaton.read (Text.unlines lexer.automaton.listing.lines) =
      .error (LineFault.missingHeader.atLine line) := by
  have hlegible := Automaton.legible_listing hs.selfContained hs.writable hs.newline_not_mem hsize
  refine hlegible.read_lines_of_empty (List.eq_nil_iff_forall_not_mem.2 ?_)
    (List.eq_nil_iff_forall_not_mem.2 halphabet)
  rintro ⟨s, l, t⟩ hmove
  obtain ⟨r, u, hu, -, -⟩ := Automaton.mem_moves_listing.1 hmove
  cases l with
  | epsilon => exact (Automaton.move_of_isDeterministic hs.isDeterministic hu).1 rfl
  | symbol c => exact halphabet c (hs.selfContained.mem_alphabet hu)

end Sound

/-- **A lexer of definitions is always written**, and what is written is read back as a lexer
with as many states and final states that classifies every word alike, provided that the lexer
knows a character. A lexer that knows none is not read back: its last header line is blank, and
the reader takes it for missing. -/
theorem reload {text : String} (hread : Definitions.read text = .ok ds)
    (h : ofDefinitions ds = .ok lexer) (hsize : lexer.automaton.states.size < countLimit) :
    ∃ written, lexer.automaton.write = .ok written ∧
      ((∃ c, c ∈ lexer.automaton.alphabet) →
        ∃ a, Automaton.read written = .ok a ∧
          a.states.size = lexer.automaton.states.size ∧
          a.finals.size = lexer.automaton.finals.size ∧
          ∀ word, classify ⟨a⟩ word = lexer.classify word) ∧
      ((∀ c, ¬ c ∈ lexer.automaton.alphabet) →
        ∃ line, Automaton.read written = .error (LineFault.missingHeader.atLine line)) := by
  have hs := sound_ofDefinitions hread h
  exact ⟨_, hs.write_eq_ok, hs.exists_read hsize, hs.exists_error hsize⟩

/-- Two definitions whose automata end in several states, one of them reading commas. -/
def listItems : Definitions :=
  ⟨[⟨"q1", "a+b?", 1, "q1: a+b?"⟩, ⟨"SEP", ",|&|\\&", 2, "SEP: ,|&|\\&"⟩], by decide⟩

theorem reload_listItems :
    Definitions.read "q1: a+b?\nSEP: ,|&|\\&" = .ok listItems ∧
      ∃ lexer written a, ofDefinitions listItems = .ok lexer ∧
        lexer.automaton.states.size < countLimit ∧ lexer.automaton.write = .ok written ∧
        Automaton.read written = .ok a ∧
        ["aab", "", ",", "&", "ab,"].map (fun word => (classify ⟨a⟩ word.toList).token) =
          [some "q1", some "SEP", some "SEP", some "SEP", none] := by
  have hread : Definitions.read "q1: a+b?\nSEP: ,|&|\\&" = .ok listItems := by decide +kernel
  obtain ⟨lexer, h⟩ : ∃ lexer, ofDefinitions listItems = .ok lexer :=
    exists_of_isOk (by decide +kernel)
  have hlexer : (ofDefinitions listItems).map (fun lexer =>
      (decide (lexer.automaton.states.size < countLimit), decide ('a' ∈ lexer.automaton.alphabet),
        ["aab", "", ",", "&", "ab,"].map fun word => (lexer.classify word.toList).token)) =
      .ok (true, true, [some "q1", some "SEP", some "SEP", some "SEP", none]) := by
    decide +kernel
  rw [h] at hlexer
  simp only [Except.map, Except.ok.injEq, Prod.mk.injEq, decide_eq_true_iff] at hlexer
  obtain ⟨hsize, hcharacter, htokens⟩ := hlexer
  obtain ⟨written, hwrite, hok, -⟩ := reload hread h hsize
  obtain ⟨a, ha, -, -, hclassify⟩ := hok ⟨'a', hcharacter⟩
  refine ⟨hread, lexer, written, a, h, hsize, hwrite, ha, ?_⟩
  rw [← htokens]
  exact List.map_congr_left fun word _ => congrArg Lexeme.token (hclassify word.toList)

/-- The definition of the empty word alone. -/
def emptyWord : Definitions := ⟨[⟨"E", "&", 1, "E: &"⟩], by decide⟩

/-- The lexer of the empty word is written, but it is not read back. -/
theorem not_reload_emptyWord :
    Definitions.read "E: &" = .ok emptyWord ∧
      ∃ lexer, ofDefinitions emptyWord = .ok lexer ∧
        lexer.automaton.write = .ok "1\nE\nE\n\n" ∧
        ¬ ∃ a, Automaton.read "1\nE\nE\n\n" = .ok a := by
  obtain ⟨lexer, h⟩ : ∃ lexer, ofDefinitions emptyWord = .ok lexer :=
    exists_of_isOk (by decide +kernel)
  have hwrite : (ofDefinitions emptyWord).map (fun lexer => lexer.automaton.write) =
      .ok (.ok "1\nE\nE\n\n") := by decide +kernel
  have hread : Automaton.read "1\nE\nE\n\n" =
      .error (LineFault.missingHeader.atLine 4) := by decide +kernel
  rw [h] at hwrite
  refine ⟨by decide +kernel, lexer, h, Except.ok.inj hwrite, ?_⟩
  rw [hread]
  nofun

end Lexer

end Frontend
