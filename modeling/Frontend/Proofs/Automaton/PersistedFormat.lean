import Frontend.Proofs.Automaton.Listings
import Frontend.Proofs.Outcomes
import Mathlib.Order.Bounds.Basic

/-!
# The format of the persisted form

What the format asks of a line depends on the number of the line only (`KeepsFormat`): a count, the
initial state, the final states, the alphabet, and from the fifth line on transitions or blank
lines. Carriage returns at the ends of lines do not matter, for each line keeps the format with them
or without (`keepsFormat_rdropWhile`). The lines are read one after the other, and a line that does
not keep the format ends the reading, so the first such line is reported (`read_reportsFirst`). What
has been read without a fault is what the lines name (`IsNamedBy`). `persisted_spec` puts this
together for every text.
-/

namespace Frontend.Automaton

variable {a b : Automaton} {line : List Char} {ls : List (List Char)} {n k : Nat}
  {move : String × Label × String} {text : String}

/-! ## What the format asks for -/

/-- The lines of a text up to the last that is not blank. -/
def contentLines (text : String) : List (List Char) :=
  (Text.lines text.toList).rdropWhile Text.isBlankText

/-- What the format asks of the line with a number. -/
def KeepsFormat (line : List Char) : Nat → Prop
  | 1 => SpellsCount (Text.trim line)
  | 2 => Text.isBlankText line = false
  | 4 => ∀ entry ∈ entries line, SpellsLabel entry
  | _ + 5 => Text.isBlankText line = true ∨
      ∃ origin symbol target, FallsInto line origin symbol target ∧ SpellsLabel symbol
  | _ => True

/-- The numbers of the lines that do not keep the format, counting from `n`. -/
def faults (n : Nat) (ls : List (List Char)) : Set Nat :=
  {k | ∃ line, (k, line) ∈ Text.numberFrom n ls ∧ ¬ KeepsFormat line k}

/-- The automaton has what the lines name, and nothing else. -/
structure IsNamedBy (a : Automaton) (initial finals alphabet : List Char)
    (transitions : List (List Char)) : Prop where
  initial : a.initial.toList = Text.trim initial
  finals : ∀ s, s ∈ a.finals ↔ s.toList ∈ entries finals
  alphabet : ∀ c, c ∈ a.alphabet ↔ labelText (.symbol c) ∈ entries alphabet ∨
    ∃ line ∈ transitions, ∃ s t, NamesMove line (s, .symbol c, t)
  targets : ∀ s l t, t ∈ a.targets s l ↔ ∃ line ∈ transitions, NamesMove line (s, l, t)
  states : ∀ s, s ∈ a.states ↔ a.Mentions s
  /-- The names of the final states say which tokens they have. -/
  tokens : ∀ s, a.tokens.get? s =
    if s ∈ a.finals then (tokenOfName s.toList).map String.ofList else none

/-! ## Carriage returns at the ends of lines -/

theorem namesMove_rdropWhile :
    NamesMove (line.rdropWhile (· == '\r')) move ↔ NamesMove line move := by
  constructor
  · rintro ⟨origin, target, h, hs, ht⟩
    have hreturns : ∀ c ∈ line.rtakeWhile (· == '\r'), c = '\r' :=
      fun c hc => List.eq_of_mem_rtakeWhile hc
    have hblank : ∀ c ∈ line.rtakeWhile (· == '\r'), Text.isBlank c = true :=
      fun c hc => hreturns c hc ▸ rfl
    refine ⟨origin, target ++ line.rtakeWhile (· == '\r'), ⟨?_, h.comma_origin, ?_, h.origin, ?_⟩,
      hs, ht.trans (Text.trim_append_blank _ hblank).symm⟩
    · rw [← List.cons_append, ← List.append_assoc, ← h.eq, List.rdropWhile_append_rtakeWhile]
    · rw [List.mem_append, not_or]
      exact ⟨h.comma_target, fun hmem => absurd (hreturns _ hmem) (by decide)⟩
    · obtain ⟨c, hc, hvisible⟩ := Text.isBlankText_eq_false_iff.1 h.target
      exact Text.isBlankText_eq_false_iff.2 ⟨c, List.mem_append_left _ hc, hvisible⟩
  · rintro ⟨origin, target, h, hs, ht⟩
    refine ⟨origin, target.rdropWhile (· == '\r'), ⟨?_, h.comma_origin, ?_, h.origin, ?_⟩, hs,
      ht.trans (Text.trim_rdropWhile target).symm⟩
    · rw [h.eq, List.rdropWhile_append_cons rfl]
    · exact fun hmem => h.comma_target ((List.rdropWhile_prefix _ _).subset hmem)
    · exact (Text.isBlankText_rdropWhile target).trans h.target

/-- From the fifth line on the format asks for transitions and leaves blank lines alone. -/
theorem keepsFormat_add_five :
    KeepsFormat line (n + 5) ↔ Text.isBlankText line = true ∨ ∃ move, NamesMove line move :=
  or_congr_right exists_namesMove_iff.symm

/-- **A line keeps the format with carriage returns at its end or without.** -/
theorem keepsFormat_rdropWhile (line : List Char) (n : Nat) :
    KeepsFormat (line.rdropWhile (· == '\r')) n ↔ KeepsFormat line n := by
  match n with
  | 0 | 3 => exact Iff.rfl
  | 1 => rw [KeepsFormat, Text.trim_rdropWhile, KeepsFormat]
  | 2 => rw [KeepsFormat, Text.isBlankText_rdropWhile, KeepsFormat]
  | 4 => rw [KeepsFormat, entries_rdropWhile, KeepsFormat]
  | n + 5 =>
    rw [keepsFormat_add_five, keepsFormat_add_five, Text.isBlankText_rdropWhile]
    simp only [namesMove_rdropWhile]

/-- The lines that are read are those of the text, without the carriage returns at their ends. -/
theorem significantLines_eq_map (text : String) :
    significantLines text.toList = (contentLines text).map (List.rdropWhile (· == '\r')) := by
  have hblank : Text.isBlankText ∘ List.rdropWhile (· == '\r') = Text.isBlankText :=
    funext Text.isBlankText_rdropWhile
  show List.rdropWhile Text.isBlankText
    ((Text.lines text.toList).map (List.rdropWhile (· == '\r'))) = _
  rw [List.rdropWhile, ← List.map_reverse, List.dropWhile_map, hblank, ← List.map_reverse]
  rfl

/-! ## The first fault -/

theorem mem_faults_cons : k ∈ faults n (line :: ls) ↔
    k = n ∧ ¬ KeepsFormat line n ∨ k ∈ faults (n + 1) ls := by
  constructor
  · rintro ⟨line', hmem, hline'⟩
    rcases List.mem_cons.1 hmem with heq | hmem
    · obtain ⟨rfl, rfl⟩ := Prod.mk.inj heq
      exact .inl ⟨rfl, hline'⟩
    · exact .inr ⟨line', hmem, hline'⟩
  · rintro (⟨rfl, hline⟩ | ⟨line', hmem, hline'⟩)
    · exact ⟨line, List.mem_cons_self, hline⟩
    · exact ⟨line', List.mem_cons_of_mem _ hmem, hline'⟩

theorem faults_nil : faults n [] = ∅ :=
  Set.eq_empty_of_forall_notMem fun _ ⟨_, hmem, _⟩ => List.not_mem_nil hmem

theorem faults_cons_of_keeps (h : KeepsFormat line n) :
    faults n (line :: ls) = faults (n + 1) ls :=
  Set.ext fun _ => mem_faults_cons.trans (or_iff_right fun hfault => hfault.2 h)

theorem le_of_mem_faults (h : k ∈ faults n ls) : n ≤ k := by
  induction ls generalizing n with
  | nil => exact absurd h (faults_nil ▸ Set.notMem_empty k)
  | cons line ls ih =>
    rcases mem_faults_cons.1 h with ⟨rfl, -⟩ | h
    · exact le_rfl
    · exact (Nat.le_succ n).trans (ih h)

theorem isLeast_faults_cons (h : ¬ KeepsFormat line n) : IsLeast (faults n (line :: ls)) n :=
  ⟨mem_faults_cons.2 (.inl ⟨rfl, h⟩), fun _ => le_of_mem_faults⟩

theorem faults_map_rdropWhile (n : Nat) (ls : List (List Char)) :
    faults n (ls.map (List.rdropWhile (· == '\r'))) = faults n ls := by
  induction ls generalizing n with
  | nil => rfl
  | cons line ls ih =>
    ext k
    rw [List.map_cons, mem_faults_cons, mem_faults_cons, keepsFormat_rdropWhile, ih]

theorem faults_eq_empty_iff : faults n ls = ∅ ↔
    ∀ k line, (k, line) ∈ Text.numberFrom n ls → KeepsFormat line k := by
  rw [Set.eq_empty_iff_forall_notMem]
  exact forall_congr' fun k => ⟨fun h line hmem => not_not.1 fun hline => h ⟨line, hmem, hline⟩,
    fun h ⟨line, hmem, hline⟩ => hline (h line hmem)⟩

/-- Without faults the reading succeeds, and else it reports one in the first line that has one. -/
inductive ReportsFirst (faults : Set Nat) : Except Error Automaton → Prop
  | ok {a : Automaton} (h : faults = ∅) : ReportsFirst faults (.ok a)
  | error {n : Nat} (fault : LineFault) (h : IsLeast faults n) :
    ReportsFirst faults (.error (fault.atLine n))

variable {r : Except Error Automaton} {fs : Set Nat}

theorem ReportsFirst.exists_ok_iff (h : ReportsFirst fs r) : (∃ a, r = .ok a) ↔ fs = ∅ := by
  cases h with
  | ok h => exact iff_of_true ⟨_, rfl⟩ h
  | error fault h => exact iff_of_false nofun h.nonempty.ne_empty

theorem ReportsFirst.exists_fault (h : ReportsFirst fs r) (hn : IsLeast fs n) :
    ∃ fault : LineFault, r = .error (fault.atLine n) := by
  cases h with
  | ok h => exact absurd h hn.nonempty.ne_empty
  | error fault h =>
    obtain rfl := h.unique hn
    exact ⟨fault, rfl⟩

/-- A line that keeps the format leaves the reading to the lines behind it. -/
theorem ReportsFirst.cons (hline : KeepsFormat line n) (h : ReportsFirst (faults (n + 1) ls) r) :
    ReportsFirst (faults n (line :: ls)) r := by
  rwa [faults_cons_of_keeps hline]

/-- A line at fault is reported before all lines behind it. -/
theorem reportsFirst_cons (hline : ¬ KeepsFormat line n) (fault : LineFault) :
    ReportsFirst (faults n (line :: ls)) (.error (fault.atLine n)) :=
  .error fault (isLeast_faults_cons hline)

/-- **The first of the transition lines that is at fault is reported.** -/
theorem readTransitions_reportsFirst (n : Nat) (a : Automaton) (ls : List (List Char)) :
    ReportsFirst (faults (n + 5) ls) (readTransitions (n + 5) a ls) := by
  induction ls generalizing n a with
  | nil => exact .ok faults_nil
  | cons line ls ih =>
    have hnext : ∀ a, ReportsFirst (faults (n + 5 + 1) ls) (readTransitions (n + 5 + 1) a ls) := by
      rw [Nat.add_right_comm]
      exact ih (n + 1)
    rw [readTransitions]
    split
    · next hblank => exact .cons (keepsFormat_add_five.2 (.inl hblank)) (hnext a)
    · next hblank =>
      split
      · next fault hfault =>
        refine reportsFirst_cons (fun hline => ?_) fault
        obtain ⟨⟨s, l, t⟩, hmove⟩ := (keepsFormat_add_five.1 hline).resolve_left hblank
        rw [readTransition_eq_ok_iff.2 hmove] at hfault
        cases hfault
      · next move target hmove =>
        exact .cons (keepsFormat_add_five.2 (.inr ⟨_, readTransition_eq_ok_iff.1 hmove⟩))
          (hnext _)

/-- **The first of all lines that is at fault is reported.** -/
theorem read_reportsFirst (h : 4 ≤ (contentLines text).length) :
    ReportsFirst (faults 1 (contentLines text)) (read text) := by
  rw [← faults_map_rdropWhile, ← significantLines_eq_map]
  rw [← List.length_map (List.rdropWhile (· == '\r')), ← significantLines_eq_map] at h
  unfold read
  match significantLines text.toList, h with
  | count :: initial :: finals :: alphabet :: transitions, _ =>
    dsimp only
    split
    · next hcount =>
      refine reportsFirst_cons (fun hline => ?_) _
      rw [Bool.not_eq_true', ← Bool.not_eq_true, isCount_iff] at hcount
      exact hcount hline
    · next hcount =>
      rw [Bool.not_eq_true', Bool.not_eq_false, isCount_iff] at hcount
      refine .cons hcount ?_
      split
      · next hinitial => exact reportsFirst_cons (fun hline => by cases hline.symm.trans hinitial) _
      · next hinitial =>
        refine .cons (Bool.eq_false_iff.2 hinitial) (.cons trivial ?_)
        split
        · next fault halphabet =>
          refine reportsFirst_cons (fun hline => ?_) fault
          obtain ⟨symbols, hsymbols⟩ := exists_readAlphabet_iff.2 hline
          rw [hsymbols] at halphabet
          cases halphabet
        · next symbols halphabet =>
          exact .cons (exists_readAlphabet_iff.1 ⟨symbols, halphabet⟩)
            (readTransitions_reportsFirst 0 _ transitions)

/-! ## What the lines name -/

/-- The transitions that are read are those that the lines name. -/
theorem exists_moves_of_readTransitions (h : readTransitions n a ls = .ok b) :
    ∃ moves, b = a.addTransitions moves ∧
      ∀ move, move ∈ moves ↔ ∃ line ∈ ls, NamesMove line move := by
  induction ls generalizing n a with
  | nil =>
    obtain rfl := Except.ok.inj h
    exact ⟨[], rfl, fun _ => iff_of_false List.not_mem_nil fun ⟨_, hline, _⟩ =>
      List.not_mem_nil hline⟩
  | cons line ls ih =>
    rw [readTransitions] at h
    split at h
    · next hblank =>
      obtain ⟨moves, hb, hmoves⟩ := ih h
      refine ⟨moves, hb, fun move => ?_⟩
      have hnone : ¬ NamesMove line move := fun hmove =>
        Bool.false_ne_true (hmove.isBlankText_eq_false.symm.trans hblank)
      rw [hmoves, List.exists_mem_cons_iff, or_iff_right hnone]
    · split at h
      · cases h
      · next move target hmove =>
        obtain ⟨moves, hb, hmoves⟩ := ih h
        obtain ⟨source, label⟩ := move
        refine ⟨(source, label, target) :: moves, hb, fun move => ?_⟩
        obtain ⟨s, l, t⟩ := move
        have hline : NamesMove line (s, l, t) ↔ (s, l, t) = (source, label, target) := by
          rw [← readTransition_eq_ok_iff, hmove, Except.ok.injEq, Prod.mk.injEq, Move.mk.injEq,
            Prod.mk.injEq, Prod.mk.injEq, and_assoc, eq_comm (a := source), eq_comm (a := label),
            eq_comm (a := target)]
        rw [List.mem_cons, hmoves, List.exists_mem_cons_iff, hline]

section Header

variable {initial finals alphabet : List Char} {s : String}

/-- What has been read from the lines is what they name. -/
theorem isNamedBy_addTransitions {symbols : OrdSet Char} {moves : List (String × Label × String)}
    (halphabet : readAlphabet (entries alphabet) = .ok symbols)
    (hmoves : ∀ move, move ∈ moves ↔ ∃ line ∈ ls, NamesMove line move) :
    IsNamedBy
      ({ ofHeader (Text.trim initial) finals with alphabet := symbols }.addTransitions moves)
      initial finals alphabet ls := by
  have htargets : ∀ s l t, t ∈ ({ ofHeader (Text.trim initial) finals with
      alphabet := symbols }.addTransitions moves).targets s l ↔ (s, l, t) ∈ moves := by
    intro s l t
    rw [mem_targets_addTransitions]
    exact or_iff_right fun h => OrdSet.not_mem_empty (targets_ofHeader s l ▸ h)
  constructor
  · rw [addTransitions_frame.1]
    exact (congrArg String.toList initial_ofHeader).trans String.toList_ofList
  · intro s
    rw [addTransitions_frame.2.1]
    exact mem_finals_ofHeader
  · intro c
    rw [mem_alphabet_addTransitions, mem_readAlphabet halphabet]
    refine or_congr_right ⟨?_, ?_⟩
    · rintro ⟨⟨s, l, t⟩, hmove, rfl⟩
      obtain ⟨line, hline, hnames⟩ := (hmoves _).1 hmove
      exact ⟨line, hline, s, t, hnames⟩
    · rintro ⟨line, hline, s, t, hnames⟩
      exact ⟨_, (hmoves _).2 ⟨line, hline, hnames⟩, rfl⟩
  · intro s l t
    rw [htargets, hmoves]
  · intro s
    have hheader : s ∈ (ofHeader (Text.trim initial) finals).states ↔
        s = (ofHeader (Text.trim initial) finals).initial ∨
          s ∈ (ofHeader (Text.trim initial) finals).finals := by
      rw [mem_states_ofHeader, initial_ofHeader, mem_finals_ofHeader]
    rw [mem_states_addTransitions, Mentions, addTransitions_frame.1, addTransitions_frame.2.1]
    simp only [htargets]
    refine (or_congr_left hheader).trans (or_assoc.trans (or_congr_right (or_congr_right ?_)))
    constructor
    · rintro ⟨⟨source, l, target⟩, hmove, rfl | rfl⟩
      · exact ⟨l, target, .inl hmove⟩
      · exact ⟨l, source, .inr hmove⟩
    · rintro ⟨l, t, hmove | hmove⟩
      · exact ⟨_, hmove, .inl rfl⟩
      · exact ⟨_, hmove, .inr rfl⟩
  · intro s
    rw [addTransitions_frame.2.1, addTransitions_frame.2.2]
    exact get?_tokens_ofHeader.trans (if_congr mem_finals_ofHeader.symm rfl rfl)

/-- Carriage returns at the ends of lines are no part of what the lines name. -/
theorem IsNamedBy.of_rdropWhile
    (h : a.IsNamedBy (initial.rdropWhile (· == '\r')) (finals.rdropWhile (· == '\r'))
      (alphabet.rdropWhile (· == '\r')) (ls.map (List.rdropWhile (· == '\r')))) :
    a.IsNamedBy initial finals alphabet ls := by
  have hmoves : ∀ move, (∃ line ∈ ls.map (List.rdropWhile (· == '\r')), NamesMove line move) ↔
      ∃ line ∈ ls, NamesMove line move := by
    simp [namesMove_rdropWhile]
  obtain ⟨hinitial, hfinals, halphabet, htargets, hstates, htokens⟩ := h
  rw [Text.trim_rdropWhile] at hinitial
  simp only [entries_rdropWhile] at hfinals halphabet
  refine ⟨hinitial, hfinals, ?_, fun s l t => (htargets s l t).trans (hmoves _), hstates, htokens⟩
  intro c
  rw [halphabet]
  simp [namesMove_rdropWhile]

end Header

/-- **The automaton that is read has what the lines name**, and nothing else. -/
theorem isNamedBy_of_read (h : read text = .ok a) :
    ∃ count initial finals alphabet transitions,
      contentLines text = count :: initial :: finals :: alphabet :: transitions ∧
        a.IsNamedBy initial finals alphabet transitions := by
  obtain ⟨_, _, _, _, _, symbols, hlines, -, -, halphabet, hread⟩ := exists_of_read h
  rw [significantLines_eq_map] at hlines
  obtain ⟨count, ls, hcontent, -, hls⟩ := List.map_eq_cons_iff.1 hlines
  obtain ⟨initial, ls, rfl, rfl, hmore⟩ := List.map_eq_cons_iff.1 hls
  obtain ⟨finals, ls, rfl, rfl, hrest⟩ := List.map_eq_cons_iff.1 hmore
  obtain ⟨alphabet, ls, rfl, rfl, rfl⟩ := List.map_eq_cons_iff.1 hrest
  obtain ⟨moves, rfl, hmoves⟩ := exists_moves_of_readTransitions hread
  exact ⟨count, initial, finals, alphabet, ls, hcontent,
    (isNamedBy_addTransitions halphabet hmoves).of_rdropWhile⟩

/-- A text without four lines up to its last that is not blank is too short. -/
theorem read_of_short (h : (contentLines text).length < 4) :
    ∃ fault : LineFault, read text = .error (fault.atLine ((contentLines text).length + 1)) := by
  rw [← List.length_map (List.rdropWhile (· == '\r')), ← significantLines_eq_map] at h ⊢
  unfold read
  match significantLines text.toList, h with
  | [], _ => exact ⟨_, rfl⟩
  | [_], _ | [_, _], _ | [_, _, _], _ => exact ⟨_, rfl⟩

/-- A text has no lines up to its last that is not blank exactly if it is blank itself. -/
theorem contentLines_eq_nil_iff : contentLines text = [] ↔ Text.isBlankText text.toList = true := by
  rw [contentLines, List.rdropWhile_eq_nil_iff, ← Text.all_isBlankText_lines, List.all_eq_true]

/-- **The texts that are read are those that keep the format.** They have four lines at least up to
their last that is not blank, all of which keep the format, and the automaton has what these lines
name and nothing else. In all other texts a fault is reported: in the first line if the text is
blank, behind its last line if it is too short, and else in the first line at fault. -/
theorem persisted_spec (text : String) :
    ((∃ a, read text = .ok a) ↔ 4 ≤ (contentLines text).length ∧
      ∀ n line, (n, line) ∈ Text.numberFrom 1 (contentLines text) → KeepsFormat line n) ∧
    (∀ a, read text = .ok a → ∃ count initial finals alphabet transitions,
      contentLines text = count :: initial :: finals :: alphabet :: transitions ∧
        a.IsNamedBy initial finals alphabet transitions) ∧
    (Text.isBlankText text.toList = true →
      ∃ fault : LineFault, read text = .error (fault.atLine 1)) ∧
    ((contentLines text).length < 4 → ∃ fault : LineFault,
      read text = .error (fault.atLine ((contentLines text).length + 1))) ∧
    (4 ≤ (contentLines text).length → ∀ n, IsLeast (faults 1 (contentLines text)) n →
      ∃ fault : LineFault, read text = .error (fault.atLine n)) := by
  refine ⟨⟨fun ⟨a, ha⟩ => ?_, fun ⟨hlength, hkeeps⟩ => ?_⟩, fun a => isNamedBy_of_read,
    fun hblank => ?_, read_of_short, fun hlength n hn => ?_⟩
  · obtain ⟨count, initial, finals, alphabet, transitions, hlines, -⟩ := isNamedBy_of_read ha
    have hlength : 4 ≤ (contentLines text).length := by rw [hlines]; simp
    exact ⟨hlength, faults_eq_empty_iff.1 ((read_reportsFirst hlength).exists_ok_iff.1 ⟨a, ha⟩)⟩
  · exact (read_reportsFirst hlength).exists_ok_iff.2 (faults_eq_empty_iff.2 hkeeps)
  · have hnil := contentLines_eq_nil_iff.2 hblank
    have hshort : (contentLines text).length < 4 := by
      rw [hnil]
      decide
    have hfault := read_of_short hshort
    rwa [hnil] at hfault
  · exact (read_reportsFirst hlength).exists_fault hn

/-- The first text ends some lines in carriage returns, and its transitions read a comma and a
space. In the second the blank lines count, and the first fault is in the last line. -/
theorem persisted_spec_lines :
    (∃ a, read "2\r\nq0\nCOMMA\n,\n\nq0,,,COMMA\r\r\n q0, ,COMMA\n\n" = .ok a ∧
      a.initial = "q0" ∧ "COMMA" ∈ a.targets "q0" (.symbol ',') ∧
        "COMMA" ∈ a.targets "q0" (.symbol ' ')) ∧
      ∃ fault : LineFault, read "2\nq0\n\na\n\nq0;a;q1\n" = .error (fault.atLine 6) := by
  constructor
  · have hlines : contentLines
        "2\r\nq0\nCOMMA\n,\n\nq0,,,COMMA\r\r\n q0, ,COMMA\n\n" =
        ["2".toList, "q0".toList, "COMMA".toList, ",".toList, [], "q0,,,COMMA\r".toList,
          " q0, ,COMMA".toList] := rfl
    have hcomma : NamesMove "q0,,,COMMA\r".toList ("q0", .symbol ',', "COMMA") :=
      readTransition_eq_ok_iff.1 rfl
    have hspace : NamesMove " q0, ,COMMA".toList ("q0", .symbol ' ', "COMMA") :=
      readTransition_eq_ok_iff.1 rfl
    obtain ⟨a, ha⟩ : ∃ a, read "2\r\nq0\nCOMMA\n,\n\nq0,,,COMMA\r\r\n q0, ,COMMA\n\n" = .ok a :=
      ⟨_, rfl⟩
    obtain ⟨count, initial, finals, alphabet, transitions, hcontent, hnamed⟩ :=
      (persisted_spec _).2.1 a ha
    cases hlines.symm.trans hcontent
    exact ⟨a, ha, String.toList_inj.1 hnamed.initial,
      (hnamed.targets _ _ _).2 ⟨_, by simp, hcomma⟩, (hnamed.targets _ _ _).2 ⟨_, by simp, hspace⟩⟩
  · have hlines : contentLines "2\nq0\n\na\n\nq0;a;q1\n" =
        ["2".toList, "q0".toList, [], "a".toList, [], "q0;a;q1".toList] := rfl
    have hcount : KeepsFormat "2".toList 1 := isCount_iff.1 rfl
    have hinitial : KeepsFormat "q0".toList 2 := rfl
    have hfinals : KeepsFormat [] 3 := trivial
    have halphabet : KeepsFormat "a".toList 4 := exists_readAlphabet_iff.1 ⟨_, rfl⟩
    have hblank : KeepsFormat [] 5 := .inl rfl
    have hfault : ¬ KeepsFormat "q0;a;q1".toList 6 := by
      rw [keepsFormat_add_five (n := 1)]
      rintro (hblank | ⟨⟨s, l, t⟩, hmove⟩)
      · cases hblank
      · cases readTransition_eq_ok_iff.2 hmove
    refine (persisted_spec _).2.2.2.2 (by rw [hlines]; decide) 6 ?_
    rw [hlines, faults_cons_of_keeps hcount, faults_cons_of_keeps hinitial,
      faults_cons_of_keeps hfinals, faults_cons_of_keeps halphabet, faults_cons_of_keeps hblank]
    exact isLeast_faults_cons hfault

end Frontend.Automaton
