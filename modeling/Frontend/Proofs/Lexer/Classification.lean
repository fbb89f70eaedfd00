import Frontend.Lexer.Classifier
import Frontend.Proofs.Automaton.Renaming
import Frontend.Proofs.Automaton.Subsets
import Frontend.Proofs.Automaton.Unions
import Frontend.Proofs.Outcomes
import Frontend.Proofs.Regex.Compilation
import Mathlib.Data.List.Find

/-!
# A lexer classifies as the definitions do one by one

The automaton of a lexer comes from those of the definitions by unions, the subset
construction and new names. A word is recognised as a token by the union exactly if the
automaton of that definition accepts it (`recognizes_unionAll`), and the subset construction
keeps the first of these tokens in the order of definition. So a lexer finds the first
definition whose own automaton accepts a word (`classify_token`).
-/

namespace Frontend

variable {ds : Definitions} {as : List Automaton}

/-! ## The automata of the definitions -/

/-- Each definition has an automaton of its own, compiled from its expanded pattern. -/
theorem Definitions.forall_compiled (h : ds.automata = .ok as) :
    as.length = ds.tokens.length ∧ ∀ e ∈ ds.tokens.zip as,
      ∃ pattern t, ds.expand e.1 = .ok pattern ∧ Regex.compile pattern = .ok t ∧
        e.2 = t.toAutomaton e.1 := by
  obtain ⟨hlength, hzip⟩ := List.forall₂_iff_zip.1 (mapM_eq_ok.1 h)
  refine ⟨hlength.symm, fun e he => ?_⟩
  obtain ⟨pattern, hexpand, hpattern⟩ := bind_eq_ok.1 (hzip he)
  obtain ⟨t, ht, htree⟩ := map_eq_ok.1 hpattern
  exact ⟨pattern, t, hexpand, ht, htree.symm⟩

/-- Each definition has an automaton of its own, which is that of an expression. -/
theorem Definitions.forall_automata (h : ds.automata = .ok as) :
    as.length = ds.tokens.length ∧
      ∀ e ∈ ds.tokens.zip as, ∃ t : Regex.Tree, t.Numbered ∧ e.2 = t.toAutomaton e.1 := by
  obtain ⟨hlength, hcompiled⟩ := forall_compiled h
  refine ⟨hlength, fun e he => ?_⟩
  obtain ⟨pattern, t, -, ht, htree⟩ := hcompiled e he
  exact ⟨t, Regex.numbered_of_compile ht, htree⟩

section Entries

variable {entries : List (String × Automaton)} {all : Automaton}
  (hentries : ∀ e ∈ entries, ∃ t : Regex.Tree, t.Numbered ∧ e.2 = t.toAutomaton e.1)
  (hall : Automaton.unionAll? (entries.map Prod.snd) = some all)

include hentries hall

/-- A word is recognised as the tokens whose automata accept it. -/
theorem recognizes_unionAll :
    all.WellFormed ∧ (∀ word, all.accepts word = true ↔ ∃ e ∈ entries, e.2.accepts word = true) ∧
      ∀ (word token : String), all.Recognizes word.toList token ↔
        ∃ e ∈ entries, e.2.accepts word = true ∧ token = e.1 := by
  cases entries with
  | nil => cases hall
  | cons e entries =>
    obtain rfl := Option.some.inj hall
    have hwf : ∀ e' ∈ e :: entries, e'.2.WellFormed := by
      intro e' he'
      obtain ⟨t, ht, heq⟩ := hentries e' he'
      exact heq ▸ Regex.Tree.wellFormed_toAutomaton ht
    have hrest : ∀ b ∈ entries.map Prod.snd, b.WellFormed := by
      intro b hb
      obtain ⟨e', he', rfl⟩ := List.mem_map.1 hb
      exact hwf e' (.tail _ he')
    obtain ⟨hall, haccepts, hrecognizes⟩ :=
      Automaton.foldl_union (hwf e List.mem_cons_self) hrest
    -- The union speaks of automata, and this theorem of automata with their tokens.
    have hmem : ∀ p : Automaton → Prop,
        (∃ b ∈ e.2 :: entries.map Prod.snd, p b) ↔ ∃ e' ∈ e :: entries, p e'.2 := by
      intro p
      rw [← List.map_cons]
      constructor
      · intro h
        obtain ⟨b, hb, hp⟩ := h
        obtain ⟨e', he', rfl⟩ := List.mem_map.1 hb
        exact ⟨e', he', hp⟩
      · intro h
        obtain ⟨e', he', hp⟩ := h
        exact ⟨e'.2, List.mem_map_of_mem he', hp⟩
    refine ⟨hall, fun word => (haccepts word).trans (hmem _), fun word token => ?_⟩
    rw [hrecognizes, hmem]
    refine exists_congr fun e' => and_congr_right fun he' => ?_
    obtain ⟨t, -, heq⟩ := hentries e' he'
    rw [heq]
    exact Regex.Tree.recognizes_toAutomaton

/-- The preferred token is that of the first automaton that accepts the word. -/
theorem tokenOfSet_unionAll (word : String) (hnodup : (entries.map Prod.fst).Nodup) :
    all.tokenOfSet (entries.map Prod.fst) (all.reached word.toList) =
      (entries.find? fun e => e.2.accepts word).map Prod.fst := by
  obtain ⟨-, -, hrecognizes⟩ := recognizes_unionAll hentries hall
  -- The names differ, so the token of an entry is found through that entry alone.
  have hmem : ∀ e ∈ entries,
      decide (e.1 ∈ (all.finalsIn (all.reached word.toList)).filterMap all.tokens.get?) =
        e.2.accepts word := by
    intro e he
    rw [Bool.eq_iff_iff, decide_eq_true_iff, Automaton.mem_tokens_iff, hrecognizes]
    constructor
    · intro h
      obtain ⟨e', he', haccepts, hname⟩ := h
      rwa [List.inj_on_of_nodup_map hnodup he he' hname]
    · exact fun haccepts => ⟨e, he, haccepts, rfl⟩
  rw [Automaton.tokenOfSet, Automaton.preferredToken_eq_find?, List.find?_map]
  · exact congrArg (Option.map Prod.fst) (List.find?_congr hmem)
  · intro t ht
    obtain ⟨e, he, -, rfl⟩ := (hrecognizes word t).1 (Automaton.mem_tokens_iff.1 ht)
    exact List.mem_map_of_mem he

end Entries

/-! ## Classification -/

namespace Lexer

variable {lexer : Lexer}

/-- A lexer runs the subset construction of the union of all automata, under new names. -/
theorem exists_unionAll (h : ofDefinitions ds = .ok lexer) :
    ∃ as all, ds.automata = .ok as ∧ Automaton.unionAll? as = some all ∧
      lexer.automaton = (all.determinize ds.tokens).canonical := by
  obtain ⟨as, has, h⟩ := bind_eq_ok.1 h
  cases hall : Automaton.unionAll? as with
  | none =>
    rw [hall] at h
    cases h
  | some all =>
    rw [hall] at h
    cases h
    exact ⟨as, all, has, hall, rfl⟩

/-- The token of a word is the preferred one among those that the union recognises it as. -/
theorem token_classify {all : Automaton} (hwf : all.WellFormed)
    (h : lexer.automaton = (all.determinize ds.tokens).canonical) {word : List Char}
    {w : String} (hw : String.ofList (Text.trim word) = w) :
    (lexer.classify word).token =
      if all.accepts w then all.tokenOfSet ds.tokens (all.reached w.toList) else none := by
  have hrun : lexer.automaton.run w = (all.determinize ds.tokens).run w := by
    rw [h]
    have hdeterminize : (all.determinize ds.tokens).WellFormed :=
      Automaton.wellFormed_determinize hwf.selfContained
    exact (Automaton.renamedBy_canonical hdeterminize).run_eq hdeterminize.selfContained
      (Automaton.isDeterministic_determinize hwf.selfContained) w
  have hclassify : (lexer.classify word).token =
      if (all.determinize ds.tokens).accepts w then ((all.determinize ds.tokens).run w).token
      else none := by
    rw [classify, hw, hrun]
    rfl
  rw [hclassify, Automaton.accepts_determinize hwf.selfContained]
  split
  · next haccepted => exact Automaton.token_determinize hwf.selfContained haccepted
  · rfl

/-- The union behind a lexer recognises words as tokens of the definitions only. -/
theorem exists_wellFormed_unionAll (h : ofDefinitions ds = .ok lexer) :
    ∃ as all, ds.automata = .ok as ∧ Automaton.unionAll? as = some all ∧
      lexer.automaton = (all.determinize ds.tokens).canonical ∧ all.WellFormed ∧
        ∀ w token, all.Recognizes w token → token ∈ ds.tokens := by
  obtain ⟨as, all, has, hall, hlexer⟩ := exists_unionAll h
  obtain ⟨hlength, hentries⟩ := Definitions.forall_automata has
  have hunion : Automaton.unionAll? ((ds.tokens.zip as).map Prod.snd) = some all := by
    rw [List.map_snd_zip hlength.le]
    exact hall
  obtain ⟨hwf, -, hrecognizes⟩ := recognizes_unionAll hentries hunion
  refine ⟨as, all, has, hall, hlexer, hwf, fun w token hw => ?_⟩
  rw [← String.toList_ofList (l := w)] at hw
  obtain ⟨e, he, -, rfl⟩ := (hrecognizes _ token).1 hw
  exact (List.of_mem_zip he).1

/-- A word is classified as one of the definitions. -/
theorem mem_tokens_of_classify (h : ofDefinitions ds = .ok lexer) {word : List Char}
    {token : String} (htoken : (lexer.classify word).token = some token) :
    token ∈ ds.tokens := by
  obtain ⟨as, all, -, -, hlexer, hwf, hrecognizes⟩ := exists_wellFormed_unionAll h
  rw [token_classify hwf hlexer rfl] at htoken
  split at htoken
  · obtain ⟨hmem, -⟩ := Automaton.preferredToken_eq_some htoken
    exact hrecognizes _ token (Automaton.mem_tokens_iff.1 hmem)
  · cases htoken

/-- **A word is classified as the first definition whose own automaton accepts it**, blank
characters around the word aside, and is left without a token exactly if none accepts it. -/
theorem classify_token (h : ofDefinitions ds = .ok lexer) :
    ∃ as, ds.automata = .ok as ∧ as.length = ds.tokens.length ∧ ∀ word,
      (lexer.classify word).token =
        ((ds.tokens.zip as).find? fun e => e.2.accepts (String.ofList (Text.trim word))).map
          Prod.fst ∧
      ((lexer.classify word).token = none ↔
        ∀ a ∈ as, a.accepts (String.ofList (Text.trim word)) = false) := by
  obtain ⟨as, all, has, hall, hlexer⟩ := exists_unionAll h
  obtain ⟨hlength, hentries⟩ := Definitions.forall_automata has
  have hfst : (ds.tokens.zip as).map Prod.fst = ds.tokens := List.map_fst_zip hlength.ge
  have hsnd : (ds.tokens.zip as).map Prod.snd = as := List.map_snd_zip hlength.le
  have hnodup : ((ds.tokens.zip as).map Prod.fst).Nodup := hfst.symm ▸ ds.nodup
  have hall' : Automaton.unionAll? ((ds.tokens.zip as).map Prod.snd) = some all :=
    hsnd.symm ▸ hall
  obtain ⟨hwf, haccepts, -⟩ := recognizes_unionAll hentries hall'
  refine ⟨as, has, hlength, fun word => ?_⟩
  generalize hw : String.ofList (Text.trim word) = w
  have hfind : (lexer.classify word).token =
      ((ds.tokens.zip as).find? fun e => e.2.accepts w).map Prod.fst := by
    rw [token_classify hwf hlexer hw]
    split
    · rw [← tokenOfSet_unionAll hentries hall' w hnodup, hfst]
    · next hnot =>
      rw [List.find?_eq_none.2, Option.map_none]
      exact fun e he haccepted => hnot ((haccepts w).2 ⟨e, he, haccepted⟩)
  refine ⟨hfind, ?_⟩
  rw [hfind, Option.map_eq_none_iff, List.find?_eq_none]
  constructor
  · intro hnone a ha
    obtain ⟨e, he, rfl⟩ := List.mem_map.1 (hsnd.symm ▸ ha)
    exact Bool.eq_false_iff.2 (hnone e he)
  · intro hnone e he
    rw [hnone e.2 (hsnd ▸ List.mem_map_of_mem he)]
    exact Bool.false_ne_true

/-- A word that is a name as well, names, and calls, which refer to names. -/
def keywords : Definitions :=
  ⟨[⟨"IF", "if", 1, "IF: if"⟩, ⟨"NAME", "[f-i]+", 2, "NAME: [f-i]+"⟩,
    ⟨"CALL", "<NAME>(\\(\\))?", 3, "CALL: <NAME>(\\(\\))?"⟩], by decide⟩

theorem classify_token_keywords :
    Definitions.read "IF: if\nNAME: [f-i]+\nCALL: <NAME>(\\(\\))?" = .ok keywords ∧
      ∃ lexer, ofDefinitions keywords = .ok lexer ∧
        [" if ", "fi", "fi()", "if("].map (fun word => (lexer.classify word.toList).token) =
          [some "IF", some "NAME", some "CALL", none] := by
  obtain ⟨lexer, h⟩ : ∃ lexer, ofDefinitions keywords = .ok lexer :=
    exists_of_isOk (by decide +kernel)
  obtain ⟨as, has, -, hclassify⟩ := classify_token h
  refine ⟨by decide +kernel, lexer, h, ?_⟩
  have hfirst : (keywords.automata.map fun as => [" if ", "fi", "fi()", "if("].map fun word =>
      ((keywords.tokens.zip as).find? fun e =>
        e.2.accepts (String.ofList (Text.trim word.toList))).map Prod.fst) =
      .ok [some "IF", some "NAME", some "CALL", none] := by decide +kernel
  rw [has] at hfirst
  rw [← Except.ok.inj hfirst]
  exact List.map_congr_left fun word _ => (hclassify word.toList).1

end Lexer

end Frontend
