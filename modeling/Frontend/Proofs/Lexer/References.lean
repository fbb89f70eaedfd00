import Frontend.Proofs.Lexer.Classification
import Frontend.Proofs.Regex.Templates
import Mathlib.Data.List.TakeWhile

/-!
# References stand for the definitions they name

References are replaced in the text of a pattern, before it is split into tokens. A text in which
no backslash stands before a blank character is split in the same places as the search for
references cuts it, so the tokens of the expanded text are those of the text as written, with
the tokens of an expansion in parentheses for every reference (`spells_expanded`). How deep
references nest does not matter, as an expansion does not depend on the levels that were left for it
(`expandPattern_mono`). So a pattern denotes, as it is written, what its automaton accepts, where
a reference is an atom that denotes what the automaton of its name accepts
(`denotes_iff_eq_language`).
-/

namespace Frontend

open Regex (Symbol Token Spells Reads Writes Denotes TextDenotes splice
  splice_reference)

/-- The words that an automaton accepts. -/
def Automaton.language (a : Automaton) : Language Char := {w | a.accepts (String.ofList w) = true}

namespace Definitions

variable {ds : Definitions} {as : List Automaton} {d origin origin' : Definition} {a : Automaton}
  {levels levels' : Nat} {name pattern s : String} {cs : List Char} {parts : List String}
  {us : List Symbol} {ts vs : List Token}

/-! ## Expansion -/

theorem mem_of_find? (h : ds.find? name = some d) : d ∈ ds.toList ∧ d.name = name := by
  unfold find? at h
  exact ⟨List.mem_of_find?_eq_some h, beq_iff_eq.1 (List.find?_some h :)⟩

/-- What a piece of a pattern is replaced by, where so many levels are left for references. -/
inductive Fills (ds : Definitions) (origin : Definition) (levels : Nat) : Piece → String → Prop
  | text (cs : List Char) : Fills ds origin levels (.text cs) (String.ofList cs)
  | reference {name p : String} {d : Definition} (hd : ds.find? name = some d)
    (h : ds.expandPattern origin levels d.pattern = .ok p) :
    Fills ds origin levels (.reference name) ("(" ++ p ++ ")")

theorem expandPattern_succ_eq_ok :
    ds.expandPattern origin (levels + 1) pattern = .ok s ↔
      ∃ parts, List.Forall₂ (ds.Fills origin levels) (pieces pattern.toList) parts ∧
        String.join parts = s := by
  rw [expandPattern, bind_eq_ok]
  refine exists_congr fun parts => and_congr ?_ ⟨Except.ok.inj, congrArg Except.ok⟩
  rw [mapM_eq_ok]
  -- The two relations agree on every piece.
  refine iff_of_eq (congrArg (List.Forall₂ · _ _) (funext fun piece => funext fun part => ?_))
  refine propext ?_
  cases piece with
  | text cs =>
    constructor
    · intro h
      cases h
      exact .text cs
    · intro h
      cases h
      rfl
  | stray => exact ⟨nofun, nofun⟩
  | reference name =>
    constructor
    · intro h
      dsimp only at h
      split at h
      · cases h
      · next d hd =>
        obtain ⟨p, hp, rfl⟩ := map_eq_ok.1 h
        exact .reference hd hp
    · intro h
      cases h with
      | reference hd h =>
        dsimp only
        rw [hd]
        exact map_eq_ok.2 ⟨_, h, rfl⟩

/-- **An expansion does not depend on the levels that were left**, if they were enough, nor on the
definition that is blamed for an error. -/
theorem expandPattern_mono (h : ds.expandPattern origin levels pattern = .ok s)
    (hle : levels ≤ levels') : ds.expandPattern origin' levels' pattern = .ok s := by
  induction levels generalizing levels' pattern s with
  | zero => cases h
  | succ levels ih =>
    cases levels' with
    | zero => cases hle
    | succ levels' =>
      obtain ⟨parts, hparts, hs⟩ := expandPattern_succ_eq_ok.1 h
      refine expandPattern_succ_eq_ok.2 ⟨parts, hparts.imp fun piece part hfill => ?_, hs⟩
      cases hfill with
      | text cs => exact .text cs
      | reference hd h => exact .reference hd (ih h (Nat.le_of_succ_le_succ hle))

/-- What a piece of a pattern is replaced by: text stays, and a reference becomes the expansion of
its name in parentheses. -/
inductive Replaces (ds : Definitions) : Piece → String → Prop
  | text (cs : List Char) : Replaces ds (.text cs) (String.ofList cs)
  | reference {name p : String} (h : ds.expand name = .ok p) :
    Replaces ds (.reference name) ("(" ++ p ++ ")")

/-- An expansion is made of what the pieces of the pattern are replaced by. -/
theorem exists_replaces (h : ds.expand name = .ok s) :
    ∃ d parts, ds.find? name = some d ∧
      List.Forall₂ ds.Replaces (pieces d.pattern.toList) parts ∧ String.join parts = s := by
  unfold expand at h
  split at h
  · cases h
  · next d hd =>
    obtain ⟨parts, hparts, hs⟩ := expandPattern_succ_eq_ok.1 h
    refine ⟨d, parts, hd, hparts.imp fun piece part hfill => ?_, hs⟩
    cases hfill with
    | text cs => exact .text cs
    | @reference name p d' hd' h =>
      refine .reference ?_
      rw [expand, hd']
      exact expandPattern_mono h (Nat.le_succ maxDepth)

/-! ## Expanded texts -/

/-- The text without its blank characters. -/
def visible (cs : List Char) : List Char := cs.filter fun c => !Text.isBlank c

theorem visible_append {cs cs' : List Char} : visible (cs ++ cs') = visible cs ++ visible cs' :=
  List.filter_append ..

theorem visible_of_blank {c : Char} (h : Text.isBlank c = true) : visible [c] = [] := by
  rw [visible, List.filter_cons_of_neg (by rw [h]; decide), List.filter_nil]

theorem visible_of_not_blank {c : Char} (h : Text.isBlank c = false) : visible [c] = [c] := by
  rw [visible, List.filter_cons_of_pos (by rw [h]; rfl), List.filter_nil]

theorem visible_join_cons :
    visible (String.join (s :: parts)).toList =
      visible s.toList ++ visible (String.join parts).toList := by
  rw [String.toList_join, String.toList_join, List.flatMap_cons, visible_append]

/-- What a reference is replaced by spells the tokens of the expansion in parentheses. -/
theorem visible_parentheses {p : String} :
    visible ("(" ++ p ++ ")").toList = '(' :: visible p.toList ++ [')'] := by
  rw [String.toList_append, String.toList_append, visible_append, visible_append]
  rfl

/-- No backslash stands right before a blank character. -/
def EscapesNoBlank (cs : List Char) : Prop :=
  cs.IsChain fun b c => b = '\\' → Text.isBlank c = false

instance : DecidablePred EscapesNoBlank := fun cs => inferInstanceAs (Decidable (cs.IsChain _))

/-- The escape of a character that is not blank is seen as it is written. -/
theorem EscapesNoBlank.visible {c : Char} (h : EscapesNoBlank ('\\' :: c :: cs)) :
    visible ['\\', c] = ['\\', c] := by
  have hc : Text.isBlank c = false := (List.isChain_cons_cons.1 h).1 rfl
  have hescape : Text.isBlank '\\' = false := by decide
  exact List.filter_eq_self.2 (by simp [hc, hescape])

theorem EscapesNoBlank.of_suffix {cs' : List Char} (h : EscapesNoBlank cs') (hsuffix : cs <:+ cs') :
    EscapesNoBlank cs :=
  h.suffix hsuffix

theorem pieces_reference {name : List Char} (hname : ∀ c ∈ name, c ≠ '<' ∧ c ≠ '>') :
    pieces ('<' :: name ++ '>' :: cs) = .reference (String.ofList name) :: pieces cs := by
  have hinside : ∀ c ∈ name, (!isAngle c) = true := by
    intro c hc
    rw [isAngle, beq_false_of_ne (hname c hc).1, beq_false_of_ne (hname c hc).2]
    rfl
  have hdrop : (name ++ '>' :: cs).dropWhile (!isAngle ·) = '>' :: cs := by
    rw [List.dropWhile_append_of_pos hinside]
    rfl
  have htake : (name ++ '>' :: cs).takeWhile (!isAngle ·) = name := by
    rw [List.takeWhile_append_of_pos hinside]
    exact List.append_nil name
  rw [List.cons_append, pieces]
  split
  · next more hmore =>
    obtain ⟨-, rfl⟩ := List.cons.inj (hdrop.symm.trans hmore)
    rw [htake]
  · next hnone => exact absurd hdrop (hnone cs)

/-- A reference that is found goes from one angle bracket to the next. -/
theorem eq_of_dropWhile_isAngle {more : List Char} (h : cs.dropWhile (!isAngle ·) = '>' :: more) :
    cs = cs.takeWhile (!isAngle ·) ++ '>' :: more ∧
      ∀ c ∈ cs.takeWhile (!isAngle ·), c ≠ '<' ∧ c ≠ '>' := by
  refine ⟨by rw [← h, List.takeWhile_append_dropWhile], fun c hc => ?_⟩
  have hangle := List.mem_takeWhile_imp hc
  rw [Bool.not_eq_true', isAngle, Bool.or_eq_false_iff, beq_eq_false_iff_ne,
    beq_eq_false_iff_ne] at hangle
  exact hangle

theorem pieces_char {c : Char} (hescape : c ≠ '\\') (hangle : c ≠ '<' ∧ c ≠ '>') :
    pieces (c :: cs) = .text [c] :: pieces cs := by
  rw [pieces]
  · exact fun h _ => hescape h
  · exact fun _ _ h _ => hescape h
  · exact hangle.2
  · exact hangle.1

section Tokens

variable {τ : String → List Token}
  (hτ : ∀ {name p}, ds.expand name = .ok p → Spells (visible p.toList) (τ name))

include hτ

/-- **An expanded text spells the tokens of the text as written**, where the tokens of an expansion
stand in parentheses for every reference; and whatever is referred to has an expansion. -/
theorem spells_expanded (h : Writes cs us) (hescapes : EscapesNoBlank cs)
    (hparts : List.Forall₂ ds.Replaces (pieces cs) parts) :
    Spells (visible (String.join parts).toList) (splice τ us) ∧
      ∀ name, .reference name ∈ us → ∃ p, ds.expand name = .ok p := by
  induction h generalizing parts with
  | nil =>
    rw [pieces] at hparts
    cases hparts
    exact ⟨.nil, fun name hname => absurd hname List.not_mem_nil⟩
  | @blank c cs us hblank h ih =>
    have hne : ∀ {d : Char}, Text.isBlank d = false → c ≠ d := Text.ne_of_test hblank
    rw [pieces_char (hne (by decide)) ⟨hne (by decide), hne (by decide)⟩] at hparts
    obtain _ | ⟨⟨⟩, hparts⟩ := hparts
    obtain ⟨hspells, hdefined⟩ := ih (hescapes.of_suffix (List.suffix_cons _ _)) hparts
    rw [visible_join_cons, String.toList_ofList, visible_of_blank hblank]
    exact ⟨hspells, hdefined⟩
  | @escape c cs us h ih =>
    rw [pieces] at hparts
    obtain _ | ⟨⟨⟩, hparts⟩ := hparts
    obtain ⟨hspells, hdefined⟩ := ih (hescapes.of_suffix ⟨['\\', c], rfl⟩) hparts
    rw [visible_join_cons, String.toList_ofList, hescapes.visible]
    refine ⟨.escape c hspells, fun name hname => hdefined name ?_⟩
    simpa using hname
  | @dot cs us h ih =>
    rw [pieces_char (by decide) (by decide)] at hparts
    obtain _ | ⟨⟨⟩, hparts⟩ := hparts
    obtain ⟨hspells, hdefined⟩ := ih (hescapes.of_suffix (List.suffix_cons _ _)) hparts
    rw [visible_join_cons, String.toList_ofList, visible_of_not_blank (by decide)]
    exact ⟨.dot hspells, hdefined⟩
  | @reference name cs us hname h ih =>
    rw [pieces_reference hname] at hparts
    obtain _ | ⟨hpart, hparts⟩ := hparts
    cases hpart with
    | reference hexpand =>
      have hsuffix : cs <:+ '<' :: name ++ '>' :: cs := ⟨'<' :: name ++ ['>'], by simp⟩
      obtain ⟨hspells, hdefined⟩ := ih (hescapes.of_suffix hsuffix) hparts
      rw [visible_join_cons, visible_parentheses, splice_reference]
      refine ⟨(hτ hexpand).group.append_iff.2 ⟨_, rfl, hspells⟩, fun name' hname' => ?_⟩
      rcases List.mem_cons.1 hname' with heq | hname'
      · obtain rfl := Symbol.reference.inj heq
        exact ⟨_, hexpand⟩
      · exact hdefined name' hname'
  | @char c cs us hblank hescape hdot hangle h ih =>
    rw [pieces_char hescape hangle] at hparts
    obtain _ | ⟨⟨⟩, hparts⟩ := hparts
    obtain ⟨hspells, hdefined⟩ := ih (hescapes.of_suffix (List.suffix_cons _ _)) hparts
    rw [visible_join_cons, String.toList_ofList, visible_of_not_blank hblank]
    refine ⟨.char hescape hdot hspells, fun name hname => hdefined name ?_⟩
    simpa using hname

/-- A text whose expansion can be split into tokens stands for some symbols. -/
theorem exists_writes (hescapes : EscapesNoBlank cs)
    (hparts : List.Forall₂ ds.Replaces (pieces cs) parts)
    (hspells : Spells (visible (String.join parts).toList) ts) : ∃ us, Writes cs us := by
  fun_induction pieces cs generalizing parts ts with
  | case1 => exact ⟨[], .nil⟩
  | case2 =>
    -- A backslash at the end would escape nothing.
    obtain _ | ⟨⟨⟩, ⟨⟩⟩ := hparts
    have hend : Spells ['\\'] ts := hspells
    cases hend with
    | char hescape => exact absurd rfl hescape
  | case3 c rest ih =>
    obtain _ | ⟨⟨⟩, hparts⟩ := hparts
    rw [visible_join_cons, String.toList_ofList, hescapes.visible] at hspells
    obtain ⟨vs, -, hrest⟩ := (Spells.escape c .nil).append_iff.1 hspells
    obtain ⟨us, hus⟩ := ih (hescapes.of_suffix ⟨['\\', c], rfl⟩) hparts hrest
    exact ⟨_, .escape c hus⟩
  | case4 => obtain _ | ⟨⟨⟩, -⟩ := hparts
  | case5 rest more hmore _ ih =>
    obtain _ | ⟨hpart, hparts⟩ := hparts
    cases hpart with
    | reference hexpand =>
      obtain ⟨hsplit, hname⟩ := eq_of_dropWhile_isAngle hmore
      have hsuffix : more <:+ '<' :: rest := by
        rw [hsplit]
        exact ⟨'<' :: rest.takeWhile (!isAngle ·) ++ ['>'], by simp⟩
      rw [visible_join_cons, visible_parentheses] at hspells
      obtain ⟨vs, -, hrest⟩ := (hτ hexpand).group.append_iff.1 hspells
      obtain ⟨us, hus⟩ := ih (hescapes.of_suffix hsuffix) hparts hrest
      have hwrites := Writes.reference hname hus
      rw [List.cons_append, ← hsplit] at hwrites
      exact ⟨_, hwrites⟩
  | case6 => obtain _ | ⟨⟨⟩, -⟩ := hparts
  | case7 c rest hlast hescape hclose hopen ih =>
    have hrest := hescapes.of_suffix (List.suffix_cons c rest)
    have hbackslash : c ≠ '\\' := by
      intro hc
      cases rest with
      | nil => exact hlast hc rfl
      | cons d rest => exact hescape d rest hc rfl
    obtain _ | ⟨⟨⟩, hparts⟩ := hparts
    rw [visible_join_cons, String.toList_ofList] at hspells
    cases hblank : Text.isBlank c with
    | true =>
      rw [visible_of_blank hblank] at hspells
      obtain ⟨us, hus⟩ := ih hrest hparts hspells
      exact ⟨us, .blank hblank hus⟩
    | false =>
      rw [visible_of_not_blank hblank] at hspells
      by_cases hdot : c = '.'
      · subst hdot
        obtain ⟨vs, -, hvs⟩ := (Spells.dot .nil).append_iff.1 hspells
        obtain ⟨us, hus⟩ := ih hrest hparts hvs
        exact ⟨us, .dot hus⟩
      · obtain ⟨vs, -, hvs⟩ := (Spells.char hbackslash hdot .nil).append_iff.1 hspells
        obtain ⟨us, hus⟩ := ih hrest hparts hvs
        exact ⟨_, .char hblank hbackslash hdot ⟨hopen, hclose⟩ hus⟩

end Tokens

/-! ## References denote what the automata accept -/

/-- What a reference denotes: the words that the automaton of its name accepts. -/
def Denoted (ds : Definitions) (as : List Automaton) (name : String) (L : Language Char) : Prop :=
  ∃ d a, (d, a) ∈ ds.toList.zip as ∧ d.name = name ∧ L = a.language

/-- The tokens of the expansion of a name, if it has one. -/
def expandedTokens (ds : Definitions) (name : String) : List Token :=
  match ds.expand name with
  | .ok p => (Regex.split? (visible p.toList)).getD []
  | .error _ => []

/-- Each definition has an automaton; the tokens of its expansion can be read, and however they are
read, they are read as what the automaton accepts. -/
theorem reads_expandedTokens (h : ds.automata = .ok as) (he : (d, a) ∈ ds.toList.zip as) :
    ∃ p, ds.expand d.name = .ok p ∧ Spells (visible p.toList) (ds.expandedTokens d.name) ∧
      (∃ q, Reads .alt (ds.expandedTokens d.name) q) ∧
      ∀ q, Reads .alt (ds.expandedTokens d.name) q → q.language = a.language := by
  have hzip : (d.name, a) ∈ ds.tokens.zip as := by
    rw [tokens, List.zip_map_left]
    exact List.mem_map.2 ⟨_, he, rfl⟩
  obtain ⟨p, t, hexpand, ht, ha⟩ := (forall_compiled h).2 _ hzip
  dsimp only at hexpand ha
  obtain ⟨q, ts, hspells, hq⟩ := Regex.exists_readsText ht
  have htokens : ds.expandedTokens d.name = ts := by
    rw [expandedTokens, hexpand]
    dsimp only
    rw [visible, Regex.split?_eq_some_iff.2 hspells]
    rfl
  rw [htokens]
  refine ⟨p, hexpand, hspells, ⟨q, hq⟩, fun q hq => ?_⟩
  obtain ⟨hnumbered, hlanguage⟩ := Regex.compile_reads ht ⟨ts, hspells, hq⟩
  ext word
  show _ ↔ a.accepts (String.ofList word) = true
  rw [ha, Regex.Tree.accepts_toAutomaton hnumbered, String.toList_ofList, hlanguage]

section Automata

variable (h : ds.automata = .ok as)

include h

theorem length_automata : as.length = ds.toList.length :=
  (forall_compiled h).1.trans (List.length_map _)

/-- A name that has an expansion is that of a definition, and so it has an automaton. -/
theorem exists_mem_zip_of_expand (hexpand : ds.expand name = .ok s) :
    ∃ d a, (d, a) ∈ ds.toList.zip as ∧ d.name = name := by
  obtain ⟨d, parts, hd, -, -⟩ := exists_replaces hexpand
  obtain ⟨hmem, hname⟩ := mem_of_find? hd
  rw [← List.map_fst_zip (length_automata h).ge] at hmem
  obtain ⟨⟨d', a⟩, he, rfl⟩ := List.mem_map.1 hmem
  exact ⟨d', a, he, hname⟩

/-- An expansion spells its tokens. -/
theorem spells_expandedTokens (hexpand : ds.expand name = .ok s) :
    Spells (visible s.toList) (ds.expandedTokens name) := by
  obtain ⟨d, a, he, rfl⟩ := exists_mem_zip_of_expand h hexpand
  obtain ⟨p, hp, hspells, -, -⟩ := reads_expandedTokens h he
  obtain rfl := Except.ok.inj (hexpand.symm.trans hp)
  exact hspells

/-- A reference denotes what the tokens of its expansion are read as. -/
theorem denoted_iff {L : Language Char} :
    ds.Denoted as name L ↔ ∃ q, Reads .alt (ds.expandedTokens name) q ∧ q.language = L := by
  constructor
  · intro hdenoted
    obtain ⟨d, a, he, rfl, rfl⟩ := hdenoted
    obtain ⟨p, -, -, ⟨q, hq⟩, hlanguage⟩ := reads_expandedTokens h he
    exact ⟨q, hq, hlanguage q hq⟩
  · intro hreads
    obtain ⟨q, hq, rfl⟩ := hreads
    cases hexpand : ds.expand name with
    | error e =>
      -- Without an expansion there are no tokens, and so there is nothing to be read.
      rw [expandedTokens, hexpand] at hq
      exact absurd rfl hq.ne_nil
    | ok p =>
      obtain ⟨d, a, he, rfl⟩ := exists_mem_zip_of_expand h hexpand
      obtain ⟨p, -, -, -, hlanguage⟩ := reads_expandedTokens h he
      exact ⟨d, a, he, rfl, hlanguage q hq⟩

/-- The symbols of a pattern denote what the automaton accepts. -/
theorem denotes_symbols_iff (he : (d, a) ∈ ds.toList.zip as)
    (hescapes : EscapesNoBlank d.pattern.toList) {L : Language Char} :
    (∃ us, Writes d.pattern.toList us) ∧ ∀ us, Writes d.pattern.toList us →
      (Denotes (ds.Denoted as) .alt us L ↔ L = a.language) := by
  obtain ⟨p, hexpand, hspells, ⟨q, hq⟩, hlanguage⟩ := reads_expandedTokens h he
  obtain ⟨d', parts, hd', hparts, rfl⟩ := exists_replaces hexpand
  obtain ⟨hmem, hname⟩ := mem_of_find? hd'
  obtain rfl : d' = d := List.inj_on_of_nodup_map ds.nodup hmem (List.of_mem_zip he).1 hname
  refine ⟨exists_writes (spells_expandedTokens h) hescapes hparts hspells, fun us hus => ?_⟩
  obtain ⟨hspells', hdefined⟩ := spells_expanded (spells_expandedTokens h) hus hescapes hparts
  have htokens : splice ds.expandedTokens us = ds.expandedTokens d'.name :=
    hspells'.unique hspells
  have hreadable : Regex.Readable ds.expandedTokens us := by
    intro name hname
    obtain ⟨p, hp⟩ := hdefined name hname
    obtain ⟨d, a, he, rfl⟩ := exists_mem_zip_of_expand h hp
    obtain ⟨-, -, -, hreads, -⟩ := reads_expandedTokens h he
    exact hreads
  rw [Regex.denotes_iff_reads hreadable (denoted_iff h), htokens]
  constructor
  · intro hreads
    obtain ⟨q, hq, rfl⟩ := hreads
    exact hlanguage q hq
  · exact fun hL => ⟨q, hq, (hlanguage q hq).trans hL.symm⟩

end Automata

/-- **References are compositional.** Each definition has an automaton. If no backslash stands
right before a blank character in the pattern, the pattern as written denotes one language, and
this is what the automaton accepts; there a reference is an atom that denotes what the automaton of
its name accepts. -/
theorem denotes_iff_eq_language (h : ds.automata = .ok as) :
    as.length = ds.toList.length ∧ ∀ d a, (d, a) ∈ ds.toList.zip as →
      EscapesNoBlank d.pattern.toList →
        ∀ L, TextDenotes (ds.Denoted as) d.pattern L ↔ L = a.language := by
  refine ⟨length_automata h, fun d a he hescapes L => ?_⟩
  obtain ⟨⟨us, hus⟩, hdenotes⟩ := denotes_symbols_iff h he hescapes (L := L)
  constructor
  · intro htext
    obtain ⟨us, hus, hL⟩ := htext
    exact (hdenotes us hus).1 hL
  · exact fun hL => ⟨us, hus, (hdenotes us hus).2 hL⟩

/-- Calls with an argument, where references stand in front of what they refer to, behind it and
inside of others, next to escapes, alternatives and postfix operators. -/
def calls : Definitions :=
  ⟨[⟨"CALL", "<NAME> \\( <ARG>? \\)", 1, "CALL: <NAME> \\( <ARG>? \\)"⟩,
    ⟨"NAME", "[f-h]<DIGIT>*", 2, "NAME: [f-h]<DIGIT>*"⟩,
    ⟨"ARG", "<DIGIT>+|\\<<NAME>\\>", 3, "ARG: <DIGIT>+|\\<<NAME>\\>"⟩,
    ⟨"DIGIT", "0|1", 4, "DIGIT: 0|1"⟩], by decide⟩

theorem denotes_iff_eq_language_calls :
    ∃ as, calls.automata = .ok as ∧
      (∀ d a, (d, a) ∈ calls.toList.zip as →
        ∀ L, TextDenotes (calls.Denoted as) d.pattern L ↔ L = a.language) ∧
      as.map (fun a => ["f()", "g10(01)", "h(<f1>)", "f(<1>)", "01"].map a.accepts) =
        [[true, true, true, false, false], [false, false, false, false, false],
          [false, false, false, false, true], [false, false, false, false, false]] := by
  obtain ⟨as, has⟩ : ∃ as, calls.automata = .ok as := exists_of_isOk (by decide +kernel)
  have hescapes : ∀ d ∈ calls.toList, EscapesNoBlank d.pattern.toList := by decide +kernel
  refine ⟨as, has, fun d a he => ?_, ?_⟩
  · exact (denotes_iff_eq_language has).2 d a he (hescapes d (List.of_mem_zip he).1)
  · have hwords : (calls.automata.map fun as => as.map fun a =>
        ["f()", "g10(01)", "h(<f1>)", "f(<1>)", "01"].map a.accepts) =
        .ok [[true, true, true, false, false], [false, false, false, false, false],
          [false, false, false, false, true], [false, false, false, false, false]] := by
      decide +kernel
    rw [has] at hwords
    exact Except.ok.inj hwords

end Definitions

end Frontend
