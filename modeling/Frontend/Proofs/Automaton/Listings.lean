import Frontend.Proofs.Automaton.PersistedLines

/-!
# What a persisted form says

A `Listing` holds what the lines of a persisted form say. If they can be told apart and read
one by one, reading them gives the automaton that the listing describes
(`Listing.Legible.read_lines`), unless the last line is blank: blank lines at the end are lost.
-/

namespace Frontend.Automaton

/-! ## Listings -/

/-- What a persisted form says, line by line. -/
structure Listing where
  count : Nat
  initial : String
  finals : List String
  alphabet : List Char
  moves : List (String × Label × String)

namespace Listing

variable (L : Listing)

/-- The line of the alphabet. -/
def alphabetLine : String :=
  String.intercalate "," (L.alphabet.map fun c => String.ofList (labelText (.symbol c)))

/-- The lines of the persisted form. -/
def lines : List String :=
  [toString L.count, L.initial, String.intercalate "," L.finals, L.alphabetLine] ++
    L.moves.map fun move => (Triple.ofMove move).render

/-- The final states with the tokens that their names say they have. -/
def namedFinals : List (String × Option String) :=
  L.finals.map fun s => (s, (tokenOfName s.toList).map String.ofList)

/-- The automaton that a persisted form describes. -/
def automaton : Automaton :=
  { (ofInitial L.initial).addFinals L.namedFinals with
    alphabet := OrdSet.ofList (L.alphabet.filter fun c => !isLost c) }.addTransitions L.moves

/-- The lines of a listing can be told apart and read one by one. -/
structure Legible : Prop where
  count_lt : L.count < countLimit
  initial : isWritable L.initial = true
  finals : ∀ s ∈ L.finals, isWritable s = true
  moves : ∀ move ∈ L.moves, IsLegible move
  /-- No line is broken by what the automaton reads. -/
  newline_not_mem : '\n' ∉ L.alphabet
  newline_not_read : ∀ move ∈ L.moves, move.2.1 ≠ .symbol '\n'

variable {L : Listing}

/-! ## The automaton of a listing -/

theorem map_fst_namedFinals : L.namedFinals.map Prod.fst = L.finals := by
  rw [namedFinals, List.map_map]
  exact List.map_id' _

theorem mem_states_automaton {s : String} : s ∈ L.automaton.states ↔
    s = L.initial ∨ s ∈ L.finals ∨ ∃ move ∈ L.moves, s = move.1 ∨ s = move.2.2 := by
  rw [automaton, mem_states_addTransitions, mem_states_addFinals, map_fst_namedFinals, ofInitial,
    OrdSet.mem_singleton, or_assoc]

theorem initial_automaton : L.automaton.initial = L.initial :=
  addTransitions_frame.1.trans addFinals_frame.1

theorem mem_finals_automaton {s : String} : s ∈ L.automaton.finals ↔ s ∈ L.finals := by
  rw [automaton, addTransitions_frame.2.1, mem_finals_addFinals, map_fst_namedFinals]
  exact or_iff_right OrdSet.not_mem_empty

theorem mem_targets_automaton {s t : String} {l : Label} :
    t ∈ L.automaton.targets s l ↔ (s, l, t) ∈ L.moves := by
  rw [automaton, mem_targets_addTransitions, targets, addFinals_frame.2]
  exact or_iff_right OrdSet.not_mem_empty

theorem mem_alphabet_automaton {c : Char} : c ∈ L.automaton.alphabet ↔
    c ∈ L.alphabet ∧ isLost c = false ∨ ∃ move ∈ L.moves, move.2.1 = .symbol c := by
  rw [automaton, mem_alphabet_addTransitions, OrdSet.mem_ofList, List.mem_filter,
    Bool.not_eq_true']

theorem get?_tokens_automaton {s : String} : L.automaton.tokens.get? s =
    if s ∈ L.finals then (tokenOfName s.toList).map String.ofList else none := by
  rw [automaton, addTransitions_frame.2.2]
  exact get?_tokens_addFinals (g := fun s => (tokenOfName s.toList).map String.ofList)
    fun _ => .inl rfl

/-! ## Reading a listing -/

/-- No line of a legible listing is broken. -/
theorem Legible.newline_not_mem_line (h : L.Legible) : ∀ line ∈ L.lines, '\n' ∉ line.toList := by
  rw [lines, List.forall_mem_append]
  constructor
  · simp only [List.forall_mem_cons, List.not_mem_nil, false_imp_iff, implies_true, and_true]
    refine ⟨Text.not_mem_toString rfl, not_mem_of_isWritable h.initial rfl, ?_, ?_⟩
    · exact newline_not_mem_intercalate fun s hs => not_mem_of_isWritable (h.finals s hs) rfl
    · refine newline_not_mem_intercalate (List.forall_mem_map.2 fun c hc => ?_)
      rw [String.toList_ofList]
      refine newline_not_mem_labelText fun hnewline => h.newline_not_mem ?_
      rwa [← Label.symbol.inj hnewline]
  · refine List.forall_mem_map.2 fun move hmove => ?_
    rw [toList_render_ofMove, List.mem_append, List.mem_append, List.mem_cons, List.mem_cons]
    obtain ⟨hsource, htarget⟩ := h.moves move hmove
    have hlabel := newline_not_mem_labelText (h.newline_not_read move hmove)
    simp [not_mem_of_isWritable hsource (show Text.isBlank '\n' = true from rfl),
      not_mem_of_isWritable htarget (show Text.isBlank '\n' = true from rfl), hlabel]

/-- The last line is not blank if the automaton moves or knows a character that is not. -/
theorem isBlankText_of_getLast
    (h : L.moves ≠ [] ∨ ∃ c ∈ L.alphabet, Text.isBlank c = false) :
    ∀ line ∈ L.lines.getLast?, Text.isBlankText line.toList = false := by
  intro line hline
  rw [lines, List.getLast?_append] at hline
  cases hmoves : (L.moves.map fun move => (Triple.ofMove move).render).getLast? with
  | none =>
    -- No transition follows, so the alphabet is last.
    rw [List.getLast?_eq_none_iff, List.map_eq_nil_iff] at hmoves
    obtain ⟨c, hc, hblank⟩ := h.resolve_left (not_not_intro hmoves)
    rw [hmoves] at hline
    obtain rfl : L.alphabetLine = line := Option.some.inj hline
    rw [Text.isBlankText_eq_false_iff, alphabetLine, String.toList_intercalate, List.map_map]
    exact ⟨c, List.mem_intercalate_of_mem
      (List.mem_map.2 ⟨c, hc, String.toList_ofList⟩) (mem_labelText_symbol c), hblank⟩
  | some last =>
    rw [hmoves] at hline
    obtain rfl : last = line := Option.some.inj hline
    obtain ⟨move, -, rfl⟩ := List.mem_map.1 (List.mem_of_getLast? hmoves)
    exact isBlankText_render move

/-- Of a legible listing no transition line is changed by the search for carriage returns. -/
theorem Legible.rdropWhile_lines (h : L.Legible) :
    (L.lines.map fun line => line.toList.rdropWhile (· == '\r')) =
      (toString L.count).toList :: L.initial.toList ::
        (String.intercalate "," L.finals).toList.rdropWhile (· == '\r') ::
          L.alphabetLine.toList.rdropWhile (· == '\r') ::
            L.moves.map fun move => (Triple.ofMove move).render.toList := by
  have hname : ∀ (x : List Char) {name : String}, isWritable name = true →
      (x ++ name.toList).rdropWhile (· == '\r') = x ++ name.toList := by
    intro x name hname
    exact List.rdropWhile_append_of_not_mem x (not_mem_of_isWritable hname rfl)
      (isWritable_iff.1 hname).1
  have hcount : (toString L.count).toList.rdropWhile (· == '\r') = (toString L.count).toList :=
    List.rdropWhile_append_of_not_mem [] (Text.not_mem_toString rfl) Text.toList_toString_ne_nil
  have hinitial : L.initial.toList.rdropWhile (· == '\r') = L.initial.toList :=
    hname [] h.initial
  have hmoves :
      L.moves.map (fun move => (Triple.ofMove move).render.toList.rdropWhile (· == '\r')) =
        L.moves.map fun move => (Triple.ofMove move).render.toList := by
    refine List.map_congr_left fun move hmove => ?_
    rw [toList_render_ofMove, List.append_cons]
    exact hname _ (h.moves move hmove).2
  rw [lines, List.map_append, List.map_map, ← hmoves]
  simp only [List.map_cons, List.map_nil, List.cons_append, List.nil_append, hcount, hinitial]
  rfl

/-- **A listing is read back as the automaton that it describes**, if its last line is not
blank. -/
theorem Legible.read_lines (h : L.Legible)
    (hlast : L.moves ≠ [] ∨ ∃ c ∈ L.alphabet, Text.isBlank c = false) :
    read (Text.unlines L.lines) = .ok L.automaton := by
  have hlines := significantLines_unlines_of_getLast h.newline_not_mem_line
    (isBlankText_of_getLast hlast)
  rw [h.rdropWhile_lines] at hlines
  have halphabet : readAlphabet (entries (L.alphabetLine.toList.rdropWhile (· == '\r'))) =
      .ok (OrdSet.ofList (L.alphabet.filter fun c => !isLost c)) := by
    rw [entries_rdropWhile, alphabetLine, entries_intercalate, List.flatMap_map,
      ← readAlphabet_labels]
    simp only [String.toList_ofList]
  have hheader : ofHeader L.initial.toList
      ((String.intercalate "," L.finals).toList.rdropWhile (· == '\r')) =
        (ofInitial L.initial).addFinals L.namedFinals := by
    have hnames : (L.finals.map String.toList).map String.ofList = L.finals := by simp
    rw [ofHeader_eq, entries_rdropWhile, entries_names h.finals, hnames, String.ofList_toList]
    rfl
  rw [read_eq_readTransitions hlines (isCount_toString h.count_lt)
      (isBlankText_of_isWritable h.initial) halphabet,
    trim_of_isWritable h.initial, hheader, readTransitions_render h.moves]
  rfl

/-- Without transitions and characters the last header line is blank, so it is lost and then
missed when the persisted form is read. -/
theorem Legible.read_lines_of_empty (h : L.Legible) (hmoves : L.moves = [])
    (halphabet : L.alphabet = []) :
    ∃ line, read (Text.unlines L.lines) = .error (LineFault.missingHeader.atLine line) := by
  have hlines := significantLines_unlines h.newline_not_mem_line
  have hlast : L.alphabetLine.toList.rdropWhile (· == '\r') = [] := by
    rw [alphabetLine, halphabet]
    rfl
  rw [h.rdropWhile_lines, hmoves, hlast, List.map_nil] at hlines
  generalize (String.intercalate "," L.finals).toList.rdropWhile (· == '\r') = finals at hlines
  have hdrop : ([(toString L.count).toList, L.initial.toList, finals, []] : List (List Char)) =
      [(toString L.count).toList, L.initial.toList, finals] ++ [[]] := rfl
  rw [hdrop, List.rdropWhile_concat_pos _ _ _ rfl] at hlines
  -- The line of the initial state stays, so some lines are left, but three at most.
  cases hleft : List.rdropWhile Text.isBlankText
      [(toString L.count).toList, L.initial.toList, finals] with
  | nil =>
    have hblank := List.rdropWhile_eq_nil_iff.1 hleft L.initial.toList (by simp)
    exact absurd ((isBlankText_of_isWritable h.initial).symm.trans hblank) Bool.false_ne_true
  | cons line more =>
    have hshort := (List.rdropWhile_prefix (p := Text.isBlankText)
      [(toString L.count).toList, L.initial.toList, finals]).length_le
    rw [hleft, List.length_cons] at hshort
    exact ⟨_, read_eq_missingHeader (hlines.trans hleft) hshort⟩

end Listing

end Frontend.Automaton
