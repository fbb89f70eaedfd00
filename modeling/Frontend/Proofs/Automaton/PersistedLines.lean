import Frontend.Proofs.Automaton.Building
import Frontend.Proofs.Automaton.PersistedNames
import Frontend.Proofs.Outcomes
import Frontend.Proofs.Text.Lines

/-!
# The lines of the persisted form

What the lines of the persisted form have to be, each by itself: the count of the states
(`isCount_iff`), the alphabet (`exists_readAlphabet_iff`), and the transitions, which are cut three
times at commas, so that the cuts find the two commas around the symbol, also if the symbol is a
comma itself (`readTransition_eq_ok_iff`). What has been written is read back: the count
(`isCount_toString`), the names of the final states (`entries_names`), the alphabet up to the
characters that cannot be told from the space between entries (`readAlphabet_labels`), and the
transitions, whatever character they read (`readTransitions_render`). Of the lines as a whole,
those at the end that are blank are lost (`significantLines_unlines`).
-/

namespace Frontend.Automaton

variable {a : Automaton} {c : Char} {x y line origin symbol target : List Char}
  {move : String × Label × String}

/-! ## Labels -/

theorem readLabel?_labelText (l : Label) : readLabel? (labelText l) = some l := by
  cases l with
  | epsilon => rfl
  | symbol c =>
    by_cases hc : c = '&'
    · subst hc
      rfl
    · have hread : readLabel? [c] = some (if c = '&' then .epsilon else .symbol c) := rfl
      rw [labelText, if_neg hc, hread, if_neg hc]

/-- Labels are read from their texts and from nothing else. -/
theorem readLabel?_eq_some_iff {l : Label} : readLabel? x = some l ↔ x = labelText l := by
  refine ⟨fun h => ?_, fun h => h ▸ readLabel?_labelText l⟩
  unfold readLabel? at h
  split at h
  · next c =>
    obtain rfl := Option.some.inj h
    by_cases hc : c = '&'
    · rw [if_pos hc, hc, labelText]
    · rw [if_neg hc, labelText, if_neg hc]
  · split at h
    · next hescape =>
      obtain ⟨rfl, rfl⟩ := hescape
      obtain rfl := Option.some.inj h
      rfl
    · cases h
  · cases h

/-- One character, or the escape of `&`. -/
def SpellsLabel (x : List Char) : Prop := (∃ c, x = [c]) ∨ x = ['\\', '&']

/-- What the format takes for a label is the text of one. -/
theorem spellsLabel_iff : SpellsLabel x ↔ ∃ l, x = labelText l := by
  constructor
  · rintro (⟨c, rfl⟩ | rfl)
    · exact ⟨_, readLabel?_eq_some_iff.1 rfl⟩
    · exact ⟨.symbol '&', rfl⟩
  · rintro ⟨l, rfl⟩
    cases l with
    | epsilon => exact .inl ⟨'&', rfl⟩
    | symbol c =>
      rw [labelText]
      split
      · exact .inr rfl
      · exact .inl ⟨c, rfl⟩

/-- The text of a label holds, besides the mark and its escape, only what the label reads. -/
theorem mem_labelText {l : Label} (h : c ∈ labelText l) : c = '&' ∨ c = '\\' ∨ l = .symbol c := by
  cases l with
  | epsilon => exact .inl (List.mem_singleton.1 h)
  | symbol d =>
    rw [labelText] at h
    split at h
    · rcases List.mem_cons.1 h with rfl | h
      · exact .inr (.inl rfl)
      · exact .inl (List.mem_singleton.1 h)
    · exact .inr (.inr (congrArg Label.symbol (List.mem_singleton.1 h).symm))

theorem mem_labelText_symbol (c : Char) : c ∈ labelText (.symbol c) := by
  rw [labelText]
  split
  · next h => exact h ▸ List.mem_cons_of_mem _ (List.mem_singleton_self _)
  · exact List.mem_singleton_self c

theorem newline_not_mem_labelText {l : Label} (h : l ≠ .symbol '\n') : '\n' ∉ labelText l := by
  intro hmem
  rcases mem_labelText hmem with hmem | hmem | hmem
  · exact absurd hmem (by decide)
  · exact absurd hmem (by decide)
  · exact h hmem

/-! ## Counts -/

/-- A decimal number that fits in 64 bits, perhaps after a plus sign. -/
def SpellsCount (x : List Char) : Prop :=
  ∃ digits, (x = digits ∨ x = '+' :: digits) ∧ digits ≠ [] ∧ (∀ c ∈ digits, c.isDigit = true) ∧
    Nat.ofDigitChars 10 digits 0 < countLimit

theorem isCount_iff : isCount x = true ↔ SpellsCount x := by
  have hdigits : ∀ digits : List Char,
      (!digits.isEmpty && digits.all Char.isDigit &&
        decide (digits.foldl (fun n c => 10 * n + (c.toNat - '0'.toNat)) 0 < countLimit)) = true ↔
      digits ≠ [] ∧ (∀ c ∈ digits, c.isDigit = true) ∧
        Nat.ofDigitChars 10 digits 0 < countLimit := by
    intro digits
    rw [Nat.ofDigitChars_eq_foldl]
    simp [and_assoc]
  unfold isCount SpellsCount
  split
  · next digits =>
    refine (hdigits digits).trans ⟨fun h => ⟨digits, .inr rfl, h⟩, ?_⟩
    rintro ⟨digits', rfl | heq, h⟩
    · exact absurd (h.2.1 '+' List.mem_cons_self) (by decide)
    · rwa [(List.cons.inj heq).2]
  · next hplus =>
    refine (hdigits x).trans ⟨fun h => ⟨x, .inl rfl, h⟩, ?_⟩
    rintro ⟨digits, rfl | rfl, h⟩
    · exact h
    · exact absurd rfl (hplus digits)

/-- The number of states is read back if it is a number that a count can be. -/
theorem isCount_toString {n : Nat} (h : n < countLimit) :
    isCount (Text.trim (toString n).toList) = true := by
  have hblank : ∀ c ∈ (toString n).toList, Text.isBlank c = false :=
    fun c hc => Text.isBlank_of_isDigit (Text.isDigit_of_mem_toString hc)
  have hvalue : Nat.ofDigitChars 10 (toString n).toList 0 = n := by
    rw [show (toString n).toList = Nat.toDigits 10 n from Nat.toList_repr,
      Nat.ofDigitChars_toDigits (by decide) (by decide)]
  rw [Text.trim_of_not_blank hblank, isCount_iff]
  exact ⟨_, .inl rfl, Text.toList_toString_ne_nil, fun c => Text.isDigit_of_mem_toString,
    hvalue.symm ▸ h⟩

/-! ## Entries -/

theorem entries_append (x y : List Char) : entries (x ++ ',' :: y) = entries x ++ entries y := by
  rw [entries, Text.fields_append, List.map_append, List.filter_append]
  rfl

theorem entries_intercalate (parts : List String) :
    entries (String.intercalate "," parts).toList = parts.flatMap fun p => entries p.toList := by
  rw [String.toList_intercalate]
  induction parts with
  | nil => rfl
  | cons p parts ih =>
    cases parts with
    | nil => simp
    | cons q parts =>
      rw [List.map_cons, List.map_cons, List.intercalate_cons_cons, ← List.map_cons,
        List.flatMap_cons, ← ih, ← entries_append, List.append_assoc]
      rfl

/-- A writable text is an entry of its own. -/
theorem entries_of_isWritable {name : String} (h : isWritable name = true) :
    entries name.toList = [name.toList] := by
  rw [entries, Text.fields_of_not_mem (comma_not_mem h), List.map_singleton, trim_of_isWritable h,
    List.filter_singleton, List.isEmpty_eq_false_iff.2 (isWritable_iff.1 h).1]
  rfl

/-- The names of a header line are its entries. -/
theorem entries_names {names : List String} (h : ∀ name ∈ names, isWritable name = true) :
    entries (String.intercalate "," names).toList = names.map String.toList := by
  rw [entries_intercalate,
    List.flatMap_congr fun name hname => entries_of_isWritable (h name hname)]
  exact (List.map_eq_flatMap ..).symm

/-- Carriage returns at the end of a header line change none of its entries. -/
theorem entries_rdropWhile (x : List Char) :
    entries (x.rdropWhile (· == '\r')) = entries x := by
  have hcomma : ',' ∉ x.rtakeWhile (· == '\r') :=
    fun h => absurd (List.eq_of_mem_rtakeWhile h) (by decide)
  obtain ⟨before, last, hshort, hlong⟩ :=
    Text.fields_append_of_not_mem (x.rdropWhile (· == '\r')) hcomma
  rw [List.rdropWhile_append_rtakeWhile] at hlong
  rw [entries, entries, hshort, hlong, List.map_append, List.map_append, List.map_singleton,
    List.map_singleton, Text.trim_append_blank last fun c hc =>
      List.eq_of_mem_rtakeWhile hc ▸ rfl]

/-! ## The alphabet -/

/-- Tells whether a character cannot be an entry: it separates entries or is trimmed off. -/
def isLost (c : Char) : Bool := c == ',' || Text.isBlank c

theorem entries_labelText_of_isLost (h : isLost c = true) :
    entries (labelText (.symbol c)) = [] := by
  have hc : c ≠ '&' := by
    rintro rfl
    exact absurd h (by decide)
  rw [labelText, if_neg hc]
  by_cases hcomma : c = ','
  · subst hcomma
    decide
  · have hblank : Text.isBlank c = true := by simpa [isLost, hcomma] using h
    rw [entries, Text.fields_of_not_mem fun h => hcomma (List.mem_singleton.1 h).symm]
    simp [Text.trim, Text.trimEnd, hblank]

theorem entries_labelText_of_not_isLost (h : isLost c = false) :
    entries (labelText (.symbol c)) = [labelText (.symbol c)] := by
  obtain ⟨hcomma, hblank⟩ := Bool.or_eq_false_iff.1 h
  have hwritable : isWritable (String.ofList (labelText (.symbol c))) = true := by
    rw [isWritable_iff, String.toList_ofList, labelText]
    split
    · exact ⟨List.cons_ne_nil _ _, List.forall_mem_cons.2 ⟨by decide,
        List.forall_mem_cons.2 ⟨by decide, List.forall_mem_nil _⟩⟩⟩
    · refine ⟨List.cons_ne_nil _ _, fun d hd => ?_⟩
      rw [List.mem_singleton.1 hd]
      exact ⟨beq_eq_false_iff_ne.1 hcomma, hblank⟩
  have := entries_of_isWritable hwritable
  rwa [String.toList_ofList] at this

/-- The alphabet is read exactly if its entries are texts of labels. -/
theorem exists_readAlphabet_iff {es : List (List Char)} :
    (∃ symbols, readAlphabet es = .ok symbols) ↔ ∀ entry ∈ es, SpellsLabel entry := by
  induction es with
  | nil => exact iff_of_true ⟨_, rfl⟩ (List.forall_mem_nil _)
  | cons entry es ih =>
    rw [List.forall_mem_cons, ← ih, spellsLabel_iff, readAlphabet]
    simp only [← readLabel?_eq_some_iff]
    cases readLabel? entry with
    | none => exact iff_of_false nofun nofun
    | some label =>
      rw [and_iff_right ⟨label, rfl⟩]
      cases readAlphabet es with
      | error fault => exact iff_of_false nofun nofun
      | ok symbols => exact iff_of_true ⟨_, rfl⟩ ⟨_, rfl⟩

/-- The alphabet holds the characters that its entries are the texts of. -/
theorem mem_readAlphabet {es : List (List Char)} {symbols : OrdSet Char} {c : Char}
    (h : readAlphabet es = .ok symbols) : c ∈ symbols ↔ labelText (.symbol c) ∈ es := by
  induction es generalizing symbols with
  | nil =>
    obtain rfl := Except.ok.inj h
    exact iff_of_false OrdSet.not_mem_empty List.not_mem_nil
  | cons entry es ih =>
    rw [readAlphabet] at h
    split at h
    · cases h
    · next label hlabel =>
      obtain ⟨more, hmore, rfl⟩ := map_eq_ok.1 h
      have hsame : label = .symbol c ↔ labelText (.symbol c) = entry := by
        rw [← Option.some_inj, ← hlabel, readLabel?_eq_some_iff, eq_comm]
      rw [OrdSet.mem_union, Label.mem_symbols, ih hmore, hsame, List.mem_cons]

/-- An alphabet is read back except for the characters that cannot be entries. -/
theorem readAlphabet_labels (cs : List Char) :
    readAlphabet (cs.flatMap fun c => entries (labelText (.symbol c))) =
      .ok (OrdSet.ofList (cs.filter fun c => !isLost c)) := by
  induction cs with
  | nil => rfl
  | cons d cs ih =>
    rw [List.flatMap_cons]
    cases hd : isLost d with
    | true =>
      rw [entries_labelText_of_isLost hd, List.filter_cons_of_neg (by simp [hd])]
      exact ih
    | false =>
      rw [entries_labelText_of_not_isLost hd, List.filter_cons_of_pos (by simp [hd]),
        List.singleton_append, readAlphabet, readLabel?_labelText, ih]
      refine congrArg Except.ok (OrdSet.ext fun c => ?_)
      rw [OrdSet.mem_union, OrdSet.mem_ofList, OrdSet.mem_ofList, List.mem_cons, Label.symbols,
        OrdSet.mem_singleton]

/-! ## The header -/

section Header

variable {initial finals : List Char} {s : String}

theorem ofHeader_eq (initial finals : List Char) :
    ofHeader initial finals = (ofInitial (String.ofList initial)).addFinals
      (((entries finals).map String.ofList).map fun s =>
        (s, (tokenOfName s.toList).map String.ofList)) := by
  rw [ofHeader, addFinals, List.foldl_map, List.foldl_map]
  simp only [String.toList_ofList]

theorem mem_map_entries : s ∈ (entries finals).map String.ofList ↔ s.toList ∈ entries finals := by
  rw [List.mem_map]
  refine ⟨?_, fun h => ⟨_, h, String.ofList_toList⟩⟩
  rintro ⟨entry, hentry, rfl⟩
  rwa [String.toList_ofList]

theorem initial_ofHeader : (ofHeader initial finals).initial = String.ofList initial := by
  rw [ofHeader_eq, addFinals_frame.1, ofInitial]

theorem targets_ofHeader (s : String) (l : Label) : (ofHeader initial finals).targets s l = ∅ := by
  rw [ofHeader_eq, targets_addFinals]
  rfl

theorem mem_finals_ofHeader : s ∈ (ofHeader initial finals).finals ↔ s.toList ∈ entries finals := by
  rw [ofHeader_eq, mem_finals_addFinals, List.map_map, ← mem_map_entries]
  simp [ofInitial, OrdSet.not_mem_empty]

theorem mem_states_ofHeader : s ∈ (ofHeader initial finals).states ↔
    s = String.ofList initial ∨ s.toList ∈ entries finals := by
  rw [ofHeader_eq, mem_states_addFinals, List.map_map, ← mem_map_entries]
  simp [ofInitial, OrdSet.mem_singleton]

theorem get?_tokens_ofHeader : (ofHeader initial finals).tokens.get? s =
    if s.toList ∈ entries finals then (tokenOfName s.toList).map String.ofList else none := by
  rw [ofHeader_eq, get?_tokens_addFinals (g := fun s => (tokenOfName s.toList).map String.ofList)
    fun _ => .inl rfl]
  exact if_congr mem_map_entries rfl rfl

end Header

/-! ## Transitions -/

/-- The line of a transition between two names. -/
def Triple.ofMove (move : String × Label × String) : Triple :=
  ⟨move.1, String.ofList (labelText move.2.1), move.2.2⟩

/-- Both states of a transition can stand between commas. -/
def IsLegible (move : String × Label × String) : Prop :=
  isWritable move.1 = true ∧ isWritable move.2.2 = true

theorem toList_render_ofMove (move : String × Label × String) :
    (Triple.ofMove move).render.toList =
      (move.1.toList ++ ',' :: labelText move.2.1) ++ ',' :: move.2.2.toList := by
  simp [Triple.ofMove, Triple.render, String.toList_append]

/-- A line is cut at two commas: the states on its sides hold neither a comma nor blank characters
alone, and what stands between them may be anything. -/
structure FallsInto (line origin symbol target : List Char) : Prop where
  eq : line = origin ++ ',' :: symbol ++ ',' :: target
  comma_origin : ',' ∉ origin
  comma_target : ',' ∉ target
  origin : Text.isBlankText origin = false
  target : Text.isBlankText target = false

/-- A line names a transition: its states without the blank characters around them, and what the
transition reads. -/
def NamesMove (line : List Char) (move : String × Label × String) : Prop :=
  ∃ origin target, FallsInto line origin (labelText move.2.1) target ∧
    move.1.toList = Text.trim origin ∧ move.2.2.toList = Text.trim target

/-- The cuts of a transition line find the commas around the symbol. -/
theorem FallsInto.cuts (h : FallsInto line origin symbol target) :
    Text.cutFirst? ',' line = some (origin, symbol ++ ',' :: target) ∧
      Text.cutLast? ',' line = some (origin ++ ',' :: symbol, target) ∧
        Text.cutLast? ',' (symbol ++ ',' :: target) = some (symbol, target) := by
  refine ⟨?_, Text.cutLast?_eq_some_iff.2 ⟨h.eq, h.comma_target⟩,
    Text.cutLast?_append symbol h.comma_target⟩
  rw [h.eq, List.append_assoc, List.cons_append]
  exact Text.cutFirst?_append h.comma_origin _

/-- **A transition line is read exactly as it names a transition**, also if the symbol is a comma
or a blank character. -/
theorem readTransition_eq_ok_iff {s t : String} {l : Label} :
    readTransition line = .ok (⟨s, l⟩, t) ↔ NamesMove line (s, l, t) := by
  constructor
  · intro h
    unfold readTransition at h
    split at h
    · next origin rest before target hfirst hlast =>
      split at h
      · cases h
      · next symbol target' hsymbol =>
        split at h
        · cases h
        · next label hlabel =>
          dsimp only at h
          split at h
          · cases h
          · next hstates =>
            obtain ⟨rfl, hcomma⟩ := Text.cutFirst?_eq_some_iff.1 hfirst
            obtain ⟨rfl, hcomma'⟩ := Text.cutLast?_eq_some_iff.1 hsymbol
            -- The last comma of the line is the last behind the first one, for there is another.
            have hsame : Text.cutLast? ',' (origin ++ ',' :: (symbol ++ ',' :: target')) =
                some (origin ++ ',' :: symbol, target') :=
              Text.cutLast?_eq_some_iff.2 ⟨by simp, hcomma'⟩
            obtain ⟨-, rfl⟩ := Prod.mk.inj (Option.some.inj (hsame.symm.trans hlast))
            rw [Text.isEmpty_trim, Text.isEmpty_trim, Bool.or_eq_true, not_or, Bool.not_eq_true,
              Bool.not_eq_true] at hstates
            obtain ⟨hmove, rfl⟩ := Prod.mk.inj (Except.ok.inj h)
            obtain ⟨rfl, rfl⟩ := Move.mk.inj hmove
            rw [readLabel?_eq_some_iff] at hlabel
            exact ⟨origin, target', ⟨by simp [hlabel], hcomma, hcomma', hstates.1, hstates.2⟩,
              String.toList_ofList, String.toList_ofList⟩
    · cases h
  · rintro ⟨origin, target, hline, hs, ht⟩
    obtain ⟨hfirst, hlast, hsymbol⟩ := hline.cuts
    have hstates : ((Text.trim origin).isEmpty || (Text.trim target).isEmpty) = false := by
      rw [Text.isEmpty_trim, Text.isEmpty_trim, hline.origin, hline.target]
      rfl
    have hs' : String.ofList (Text.trim origin) = s := by rw [← hs, String.ofList_toList]
    have ht' : String.ofList (Text.trim target) = t := by rw [← ht, String.ofList_toList]
    unfold readTransition
    simp only [hfirst, hlast, hsymbol, readLabel?_labelText, hstates, hs', ht',
      Bool.false_eq_true, if_false]

/-- A line names a transition exactly if it is one as the format asks for. -/
theorem exists_namesMove_iff : (∃ move, NamesMove line move) ↔
    ∃ origin symbol target, FallsInto line origin symbol target ∧ SpellsLabel symbol := by
  constructor
  · rintro ⟨⟨s, l, t⟩, origin, target, hline, -⟩
    exact ⟨origin, _, target, hline, spellsLabel_iff.2 ⟨l, rfl⟩⟩
  · rintro ⟨origin, symbol, target, hline, hsymbol⟩
    obtain ⟨l, rfl⟩ := spellsLabel_iff.1 hsymbol
    exact ⟨(String.ofList (Text.trim origin), l, String.ofList (Text.trim target)), origin, target,
      hline, String.toList_ofList, String.toList_ofList⟩

/-- A blank line names no transition. -/
theorem NamesMove.isBlankText_eq_false (h : NamesMove line move) :
    Text.isBlankText line = false := by
  obtain ⟨origin, target, hline, -⟩ := h
  rw [hline.eq]
  exact Text.isBlankText_eq_false_iff.2 ⟨',', by simp, rfl⟩

/-- **A transition line names the transition that it was written for.** -/
theorem namesMove_render (h : IsLegible move) :
    NamesMove (Triple.ofMove move).render.toList move :=
  ⟨_, _, ⟨toList_render_ofMove move, comma_not_mem h.1, comma_not_mem h.2,
    isBlankText_of_isWritable h.1, isBlankText_of_isWritable h.2⟩, (trim_of_isWritable h.1).symm,
    (trim_of_isWritable h.2).symm⟩

theorem isBlankText_render (move : String × Label × String) :
    Text.isBlankText (Triple.ofMove move).render.toList = false := by
  rw [toList_render_ofMove]
  exact Text.isBlankText_eq_false_iff.2 ⟨',', by simp, rfl⟩

/-- Transition lines are read back one after the other. -/
theorem readTransitions_render {moves : List (String × Label × String)}
    (h : ∀ move ∈ moves, IsLegible move) (n : Nat) (a : Automaton) :
    readTransitions n a (moves.map fun move => (Triple.ofMove move).render.toList) =
      .ok (a.addTransitions moves) := by
  induction moves generalizing n a with
  | nil => rfl
  | cons move moves ih =>
    have hmove := namesMove_render (h move List.mem_cons_self)
    rw [List.map_cons, readTransitions, hmove.isBlankText_eq_false,
      readTransition_eq_ok_iff.2 hmove]
    exact ih (fun move hmove => h move (List.mem_cons_of_mem _ hmove)) (n + 1) _

/-! ## The lines as a whole -/

theorem newline_not_mem_intercalate {parts : List String} (h : ∀ p ∈ parts, '\n' ∉ p.toList) :
    '\n' ∉ (String.intercalate "," parts).toList := by
  rw [String.toList_intercalate]
  intro hmem
  rcases List.mem_intercalate hmem with hmem | ⟨x, hx, hmem⟩
  · exact absurd (List.mem_singleton.1 hmem) (by decide)
  · obtain ⟨p, hp, rfl⟩ := List.mem_map.1 hx
    exact h p hp hmem

/-- Of written lines, the blank ones at the end are lost, and carriage returns at the ends. -/
theorem significantLines_unlines {ls : List String} (h : ∀ l ∈ ls, '\n' ∉ l.toList) :
    significantLines (Text.unlines ls).toList =
      (ls.map fun l => l.toList.rdropWhile (· == '\r')).rdropWhile Text.isBlankText := by
  have hlists : ∀ l ∈ ls.map String.toList, '\n' ∉ l := List.forall_mem_map.2 h
  have hlines := Text.map_rdropWhile_lines hlists
  rw [List.flatMap_map, ← Text.toList_unlines, List.map_map] at hlines
  exact congrArg (List.rdropWhile Text.isBlankText) hlines

/-- No line is lost if the last is not blank. -/
theorem significantLines_unlines_of_getLast {ls : List String} (h : ∀ l ∈ ls, '\n' ∉ l.toList)
    (hlast : ∀ l ∈ ls.getLast?, Text.isBlankText l.toList = false) :
    significantLines (Text.unlines ls).toList =
      ls.map fun l => l.toList.rdropWhile (· == '\r') := by
  rw [significantLines_unlines h, List.rdropWhile_eq_self_iff]
  intro hne
  rw [List.getLast_map, Text.isBlankText_rdropWhile, hlast _ (List.getLast?_eq_some_getLast _)]
  exact Bool.false_ne_true

/-- With fewer than four lines a header line is missed. -/
theorem read_eq_missingHeader {text : String} {line : List Char} {more : List (List Char)}
    (h : significantLines text.toList = line :: more) (hshort : more.length < 3) :
    read text = .error (LineFault.missingHeader.atLine (more.length + 2)) := by
  rw [read, h]
  match more, hshort with
  | [], _ | [_], _ | [_, _], _ => rfl

/-- What the reading of four header lines without fault leaves to the transition lines. -/
theorem read_eq_readTransitions {text : String} {count initial finals alphabet : List Char}
    {transitions : List (List Char)} {symbols : OrdSet Char}
    (h : significantLines text.toList = count :: initial :: finals :: alphabet :: transitions)
    (hcount : isCount (Text.trim count) = true) (hinitial : Text.isBlankText initial = false)
    (halphabet : readAlphabet (entries alphabet) = .ok symbols) :
    read text = readTransitions 5
      { ofHeader (Text.trim initial) finals with alphabet := symbols } transitions := by
  rw [read, h]
  simp only [hcount, hinitial, halphabet, Bool.not_true, Bool.false_eq_true, if_false]

/-- A text that is read has four header lines without fault and passes the rest on. -/
theorem exists_of_read {text : String} (h : read text = .ok a) :
    ∃ count initial finals alphabet transitions symbols,
      significantLines text.toList = count :: initial :: finals :: alphabet :: transitions ∧
        isCount (Text.trim count) = true ∧ Text.isBlankText initial = false ∧
          readAlphabet (entries alphabet) = .ok symbols ∧
            readTransitions 5 { ofHeader (Text.trim initial) finals with alphabet := symbols }
              transitions = .ok a := by
  unfold read at h
  split at h
  · cases h
  · next hlines =>
    split at h
    · cases h
    · next hcount =>
      split at h
      · cases h
      · next hinitial =>
        split at h
        · cases h
        · next symbols halphabet =>
          rw [Bool.not_eq_true', Bool.not_eq_false] at hcount
          exact ⟨_, _, _, _, _, symbols, hlines, hcount, Bool.eq_false_iff.2 hinitial, halphabet, h⟩
  · cases h

end Frontend.Automaton
