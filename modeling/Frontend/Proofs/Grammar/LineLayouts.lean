import Frontend.Proofs.Grammar.Interning
import Frontend.Proofs.Grammar.Reading
import Mathlib.Data.List.TakeWhile

/-!
# How a rule can be laid out on a line

`Layout` says how tokens stand on a line: between them there may be any number of separators, a
word ends where a separator, a bar or the end of the line follows, and two dashes in place of a word
begin a comment. The scanner finds the tokens of every layout and of nothing else
(`layout_iff_scanLine`): one direction follows the layout and the other one the scanner.

The tokens of a rule are its head, `::=` and its bodies with bars between them (`ruleTokens`), and
these are the tokens that are read as a rule (`readRule?_eq_some_iff`). So what a line says
(`Says`) is what the scanner and the reader make of it.
-/

namespace Frontend.Grammar

variable {c : Char} {cs line : List Char} {ts : List (LineToken String)} {name head : String}
  {body : Body} {bodies : List Body}

/-! ## Layouts -/

/-- A name that can stand in a rule: it is not empty, holds no separator, bar or line feed, is not
the mark between head and bodies, and does not look like a comment. -/
structure IsName (name : String) : Prop where
  ne_nil : name.toList ≠ []
  isWordChar : ∀ c ∈ name.toList, isWordChar c = true
  not_comment : ¬ ['-', '-'] <+: name.toList
  ne_derives : name ≠ "::="

instance : Decidable (IsName name) :=
  decidable_of_iff (name.toList ≠ [] ∧ name.toList.all isWordChar = true ∧
      ¬ ['-', '-'] <+: name.toList ∧ name ≠ "::=")
    ⟨fun ⟨hne, hall, hcomment, hderives⟩ => ⟨hne, List.all_eq_true.1 hall, hcomment, hderives⟩,
      fun h => ⟨h.ne_nil, List.all_eq_true.2 h.isWordChar, h.not_comment, h.ne_derives⟩⟩

/-- No word goes on here: a separator or a bar follows, or nothing. -/
def Apart (cs : List Char) : Prop := ∀ c ∈ cs.head?, isSeparator c = true ∨ c = '|'

/-- The tokens stand on the line one after the other. -/
inductive Layout : List (LineToken String) → List Char → Prop
  | nil : Layout [] []
  | comment (text : List Char) : Layout [] ('-' :: '-' :: text)
  | separator {c : Char} {cs : List Char} {ts : List (LineToken String)} (hc : isSeparator c = true)
    (h : Layout ts cs) : Layout ts (c :: cs)
  | alt {cs : List Char} {ts : List (LineToken String)} (h : Layout ts cs) :
    Layout (.alt :: ts) ('|' :: cs)
  | derives {cs : List Char} {ts : List (LineToken String)} (hend : Apart cs) (h : Layout ts cs) :
    Layout (.derives :: ts) (':' :: ':' :: '=' :: cs)
  | symbol {name : String} {cs : List Char} {ts : List (LineToken String)} (hname : IsName name)
    (hend : Apart cs) (h : Layout ts cs) : Layout (.symbol name :: ts) (name.toList ++ cs)

/-! ## Scanning -/

theorem isWordChar_of_isSeparator (h : isSeparator c = true) : isWordChar c = false := by
  rw [isWordChar, h]
  rfl

theorem ne_bar_of_isSeparator (h : isSeparator c = true) : c ≠ '|' := by
  rintro rfl
  revert h
  decide

theorem isSeparator_of_not_isWordChar (h : isWordChar c = false) (hbar : c ≠ '|')
    (hnewline : c ≠ '\n') : isSeparator c = true := by
  simpa [isWordChar, hbar, hnewline] using h

theorem Apart.not_isWordChar (h : Apart cs) : ∀ c ∈ cs.head?, isWordChar c = false := by
  intro c hc
  rcases h c hc with hsep | rfl
  · exact isWordChar_of_isSeparator hsep
  · decide

theorem scanLine_bar : scanLine ('|' :: cs) = .alt :: scanLine cs := by
  rw [scanLine]
  rfl

theorem scanLine_separator (hc : isSeparator c = true) : scanLine (c :: cs) = scanLine cs := by
  rw [scanLine, if_neg (ne_bar_of_isSeparator hc), if_pos]
  rw [isWordChar_of_isSeparator hc]
  rfl

theorem scanLine_comment (text : List Char) : scanLine ('-' :: '-' :: text) = [] := by
  rw [scanLine]
  rfl

/-- No part of what follows belongs to a word. -/
theorem Apart.takeWhile_eq_nil (h : Apart cs) : cs.takeWhile isWordChar = [] := by
  cases cs with
  | nil => rfl
  | cons c cs =>
    exact List.takeWhile_cons_of_neg (by rw [h.not_isWordChar c rfl]; exact Bool.false_ne_true)

/-- A word is taken as a whole. -/
theorem scanLine_word {word : List Char} (hne : word ≠ []) (hword : ∀ c ∈ word, isWordChar c = true)
    (hcomment : ¬ ['-', '-'] <+: word) (hend : Apart cs) :
    scanLine (word ++ cs) = .ofWord word :: scanLine cs := by
  cases word with
  | nil => exact absurd rfl hne
  | cons c word =>
    obtain ⟨hc, hword⟩ := List.forall_mem_cons.1 hword
    have hbar : c ≠ '|' := by
      rintro rfl
      exact absurd hc (by decide)
    have htake : (word ++ cs).takeWhile isWordChar = word := by
      rw [List.takeWhile_append_of_pos hword, hend.takeWhile_eq_nil, List.append_nil]
    have hdrop : (word ++ cs).dropWhile isWordChar = cs := by
      have hsplit := (word ++ cs).takeWhile_append_dropWhile (p := isWordChar)
      rw [htake] at hsplit
      exact List.append_cancel_left hsplit
    -- The word does not begin with two dashes, and what follows it does not begin with one.
    have hdashes : ¬ (decide (c = '-') && (word ++ cs).head? == some '-') = true := by
      rw [Bool.and_eq_true, decide_eq_true_iff, beq_iff_eq]
      rintro ⟨rfl, hhead⟩
      cases word with
      | nil => exact absurd (hend.not_isWordChar '-' hhead) (by decide)
      | cons d word =>
        obtain rfl : d = '-' := Option.some.inj hhead
        exact hcomment ⟨word, rfl⟩
    rw [List.cons_append, scanLine, if_neg hbar, if_neg (by rw [hc]; decide), if_neg hdashes, htake,
      hdrop]

theorem ofWord_derives : LineToken.ofWord [':', ':', '='] = .derives := rfl

theorem IsName.ofWord (h : IsName name) : LineToken.ofWord name.toList = .symbol name := by
  have hne : name.toList ≠ [':', ':', '='] := fun heq => h.ne_derives (String.toList_inj.1 heq)
  rw [LineToken.ofWord, if_neg hne, String.ofList_toList]

/-- The scanner finds the tokens of a layout. -/
theorem Layout.scanLine_eq (h : Layout ts line) : scanLine line = ts := by
  induction h with
  | nil =>
    rw [scanLine]
  | comment text => exact scanLine_comment text
  | separator hc _ ih => rw [scanLine_separator hc, ih]
  | alt _ ih => rw [scanLine_bar, ih]
  | @derives cs ts hend _ ih =>
    have hscan : scanLine ([':', ':', '='] ++ cs) = .ofWord [':', ':', '='] :: scanLine cs :=
      scanLine_word (List.cons_ne_nil _ _) (List.all_eq_true.1 rfl) (by decide) hend
    rw [ofWord_derives, ih] at hscan
    exact hscan
  | symbol hname hend _ ih =>
    rw [scanLine_word hname.ne_nil hname.isWordChar hname.not_comment hend, hname.ofWord, ih]

/-- A word is taken as far as it goes. -/
theorem apart_dropWhile (h : '\n' ∉ cs) : Apart (cs.dropWhile isWordChar) := by
  intro c hc
  have hnot : isWordChar c = false := by
    have hstop := List.head?_dropWhile_not isWordChar cs
    rw [Option.mem_def.1 hc] at hstop
    exact hstop
  by_cases hbar : c = '|'
  · exact .inr hbar
  · refine .inl (isSeparator_of_not_isWordChar hnot hbar ?_)
    rintro rfl
    exact h ((List.dropWhile_sublist _).mem (List.mem_of_mem_head? hc))

/-- What is taken as a word is a symbol, unless it is the mark between head and bodies. -/
theorem isName_takeWhile (hc : isWordChar c = true) (hdashes : ¬ (c = '-' ∧ cs.head? = some '-'))
    (hderives : c :: cs.takeWhile isWordChar ≠ [':', ':', '=']) :
    IsName (String.ofList (c :: cs.takeWhile isWordChar)) where
  ne_nil := by
    rw [String.toList_ofList]
    exact List.cons_ne_nil _ _
  isWordChar := by
    rw [String.toList_ofList]
    exact List.forall_mem_cons.2 ⟨hc, fun d hd => List.mem_takeWhile_imp hd⟩
  not_comment := by
    rw [String.toList_ofList]
    rintro ⟨word, hword⟩
    obtain ⟨rfl, htake⟩ := List.cons.inj hword
    have hprefix : ['-'].append word <+: cs := htake ▸ List.takeWhile_prefix isWordChar
    obtain ⟨more, rfl⟩ := hprefix
    exact hdashes ⟨rfl, rfl⟩
  ne_derives := by
    intro heq
    refine hderives ?_
    rw [← String.toList_ofList (l := c :: _), heq]
    rfl

/-- What the scanner finds stands on the line in this way. -/
theorem layout_scanLine (hline : '\n' ∉ line) : Layout (scanLine line) line := by
  fun_induction scanLine line with
  | case1 => exact .nil
  | case2 rest ih => exact .alt (ih (List.not_mem_of_not_mem_cons hline))
  | case3 c rest hbar hchar ih =>
    have hnewline : c ≠ '\n' := fun heq => hline (heq ▸ List.mem_cons_self)
    have hsep := isSeparator_of_not_isWordChar (by simpa using hchar) hbar hnewline
    exact .separator hsep (ih (List.not_mem_of_not_mem_cons hline))
  | case4 c rest hbar hchar hdashes =>
    rw [Bool.and_eq_true, decide_eq_true_iff, beq_iff_eq] at hdashes
    obtain ⟨rfl, hhead⟩ := hdashes
    cases rest with
    | nil => cases hhead
    | cons d text =>
      obtain rfl : d = '-' := Option.some.inj hhead
      exact .comment text
  | case5 c rest hbar hchar hdashes _ ih =>
    rw [Bool.and_eq_true, decide_eq_true_iff, beq_iff_eq] at hdashes
    rw [Bool.not_eq_true', Bool.not_eq_false] at hchar
    have hrest := List.not_mem_of_not_mem_cons hline
    have hend : Apart (rest.dropWhile isWordChar) := apart_dropWhile hrest
    have hlayout := ih fun hmem => hrest ((List.dropWhile_sublist _).mem hmem)
    have hsplit : c :: rest = c :: rest.takeWhile isWordChar ++ rest.dropWhile isWordChar := by
      rw [List.cons_append, List.takeWhile_append_dropWhile]
    by_cases hderives : c :: rest.takeWhile isWordChar = [':', ':', '=']
    · rw [hsplit, hderives, ofWord_derives]
      exact .derives hend hlayout
    · have hword := Layout.symbol (isName_takeWhile hchar hdashes hderives) hend hlayout
      rw [String.toList_ofList, ← hsplit] at hword
      rw [LineToken.ofWord, if_neg hderives]
      exact hword

/-- **The scanner finds the tokens of every layout, and of nothing else.** -/
theorem layout_iff_scanLine (hline : '\n' ∉ line) : Layout ts line ↔ scanLine line = ts := by
  constructor
  · exact Layout.scanLine_eq
  · rintro rfl
    exact layout_scanLine hline

/-! ## Rules -/

/-- The tokens of bodies that are alternatives to each other. -/
def alternatives (bodies : List Body) : List (LineToken String) :=
  List.intercalate [.alt] (bodies.map fun body => body.map .symbol)

/-- The tokens of a rule. -/
def ruleTokens (head : String) (bodies : List Body) : List (LineToken String) :=
  .symbol head :: .derives :: alternatives bodies

theorem alternatives_cons_cons {body' : Body} :
    alternatives (body :: body' :: bodies) =
      body.map .symbol ++ .alt :: alternatives (body' :: bodies) := by
  unfold alternatives
  rw [List.map_cons, List.map_cons, List.intercalate_cons_cons, List.append_assoc]
  rfl

theorem alternatives_nil_cons (hbodies : bodies ≠ []) :
    alternatives ([] :: bodies) = .alt :: alternatives bodies := by
  cases bodies with
  | nil => exact absurd rfl hbodies
  | cons body bodies => rw [alternatives_cons_cons, List.map_nil, List.nil_append]

theorem alternatives_symbol_cons :
    alternatives ((name :: body) :: bodies) = .symbol name :: alternatives (body :: bodies) := by
  cases bodies with
  | nil =>
    unfold alternatives
    rw [List.map_singleton, List.map_singleton, List.intercalate_singleton,
      List.intercalate_singleton, List.map_cons]
  | cons body' bodies =>
    rw [alternatives_cons_cons, alternatives_cons_cons, List.map_cons, List.cons_append]

theorem readBodies?_alternatives (hbodies : bodies ≠ []) :
    readBodies? (alternatives bodies) = some bodies := by
  induction bodies with
  | nil => exact absurd rfl hbodies
  | cons body bodies ih =>
    induction body with
    | nil =>
      by_cases hrest : bodies = []
      · subst hrest
        rfl
      · rw [alternatives_nil_cons hrest, readBodies?, ih hrest]
        rfl
    | cons name body ihb =>
      rw [alternatives_symbol_cons, readBodies?, ihb (List.cons_ne_nil _ _)]

theorem eq_alternatives (h : readBodies? ts = some bodies) :
    bodies ≠ [] ∧ ts = alternatives bodies := by
  fun_induction readBodies? ts generalizing bodies with
  | case1 =>
    obtain rfl := Option.some.inj h
    exact ⟨List.cons_ne_nil _ _, rfl⟩
  | case2 rest ih =>
    obtain ⟨more, hmore, rfl⟩ := Option.map_eq_some_iff.1 h
    obtain ⟨hne, rfl⟩ := ih hmore
    exact ⟨List.cons_ne_nil _ _, (alternatives_nil_cons hne).symm⟩
  | case3 name rest body more hrest ih =>
    obtain rfl := Option.some.inj h
    obtain ⟨-, rfl⟩ := ih hrest
    exact ⟨List.cons_ne_nil _ _, alternatives_symbol_cons.symm⟩
  | case4 => cases h
  | case5 => cases h

/-- A rule is read from its tokens, and from no others. -/
theorem readRule?_eq_some_iff :
    readRule? ts = some (head, bodies) ↔ ts = ruleTokens head bodies ∧ bodies ≠ [] := by
  constructor
  · intro h
    unfold readRule? at h
    split at h
    · obtain ⟨bodies', hbodies, heq⟩ := Option.map_eq_some_iff.1 h
      obtain ⟨rfl, rfl⟩ := Prod.mk.inj heq
      obtain ⟨hne, rfl⟩ := eq_alternatives hbodies
      exact ⟨rfl, hne⟩
    · cases h
  · rintro ⟨rfl, hne⟩
    rw [ruleTokens, readRule?, readBodies?_alternatives hne]
    rfl

/-- What a line says: nothing, if it has no tokens, or that a head has some bodies. -/
inductive Says : Option (String × List Body) → List Char → Prop
  | nothing {line : List Char} (h : Layout [] line) : Says none line
  | rule {head : String} {bodies : List Body} {line : List Char}
    (h : Layout (ruleTokens head bodies) line) (hbodies : bodies ≠ [])
    (hempty : head ≠ emptySymbol) (hend : head ≠ endMarker)
    (hbody : ∀ body ∈ bodies, endMarker ∉ body) : Says (some (head, bodies)) line

/-- **A line says what it is read as.** -/
theorem says_iff {content : Option (String × List Body)} (hline : '\n' ∉ line) :
    Says content line ↔ content? line = some content := by
  have hlayout : ∀ {ts}, Layout ts line ↔ scanLine line = ts := layout_iff_scanLine hline
  constructor
  · intro h
    unfold content?
    cases h with
    | nothing h => rw [hlayout.1 h]
    | rule h hbodies hempty hend hbody =>
      rw [hlayout.1 h]
      show ((readRule? (ruleTokens _ _)).bind checkRule?).map some = _
      rw [readRule?_eq_some_iff.2 ⟨rfl, hbodies⟩, Option.bind_some,
        checkRule?_eq_some_iff.2 ⟨rfl, hempty, hend, hbody⟩]
      rfl
  · intro h
    unfold content? at h
    split at h
    · next hscan =>
      obtain rfl := Option.some.inj h
      exact .nothing (hlayout.2 hscan)
    · obtain ⟨⟨head, bodies⟩, hrule, rfl⟩ := Option.map_eq_some_iff.1 h
      obtain ⟨rule, hrule, hcheck⟩ := Option.bind_eq_some_iff.1 hrule
      obtain ⟨rfl, hempty, hend, hbody⟩ := checkRule?_eq_some_iff.1 hcheck
      obtain ⟨hts, hbodies⟩ := readRule?_eq_some_iff.1 hrule
      exact .rule (hlayout.2 hts) hbodies hempty hend hbody

end Frontend.Grammar
