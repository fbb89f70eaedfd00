import Frontend.Proofs.Automaton.Listings
import Frontend.Proofs.Automaton.Renaming
import Frontend.Proofs.Outcomes

/-!
# An automaton that is written is read back

Writing an automaton writes its listing (`write_eq_ok_iff`), and the listing describes the
automaton itself with its states under their persisted names (`renamedBy_listing`). So an
automaton that is written and read back differs in names alone (`read_write`), as long as the
persisted form mentions every state and its last line is not blank.
-/

namespace Frontend.Automaton

variable {a : Automaton} {s t : String} {l : Label} {c : Char}

/-! ## The listing of an automaton -/

/-- The transitions under the persisted names. -/
def namedMoves (a : Automaton) : List (String × Label × String) :=
  a.transitions.toList.flatMap fun (move, targets) =>
    targets.toList.map fun target =>
      (a.persistedName move.source, move.label, a.persistedName target)

/-- What is written of an automaton. -/
def listing (a : Automaton) : Listing where
  count := a.states.size
  initial := a.persistedName a.initial
  finals := (a.finals.toList.map a.persistedName).mergeSort fun s t => !decide (t < s)
  alphabet := a.alphabet.toList
  moves := a.namedMoves.mergeSort fun m n => (Triple.ofMove m).notAfter (Triple.ofMove n)

theorem mem_namedMoves : (s, l, t) ∈ a.namedMoves ↔
    ∃ r u, u ∈ a.targets r l ∧ a.persistedName r = s ∧ a.persistedName u = t := by
  rw [namedMoves, List.mem_flatMap]
  constructor
  · intro h
    obtain ⟨⟨⟨r, l'⟩, us⟩, hmem, h⟩ := h
    obtain ⟨u, hu, heq⟩ := List.mem_map.1 h
    simp only [Prod.mk.injEq] at heq
    obtain ⟨hr, rfl, ht⟩ := heq
    exact ⟨r, u, mem_targets_iff.2 ⟨us, OrdMap.mem_toList_iff.1 hmem, hu⟩, hr, ht⟩
  · intro h
    obtain ⟨r, u, hu, rfl, rfl⟩ := h
    obtain ⟨us, hus, hu⟩ := mem_targets_iff.1 hu
    exact ⟨_, OrdMap.mem_toList_iff.2 hus, List.mem_map.2 ⟨u, hu, rfl⟩⟩

theorem mem_moves_listing : (s, l, t) ∈ a.listing.moves ↔
    ∃ r u, u ∈ a.targets r l ∧ a.persistedName r = s ∧ a.persistedName u = t := by
  rw [listing, List.mem_mergeSort, mem_namedMoves]

theorem mem_finals_listing : s ∈ a.listing.finals ↔ ∃ r ∈ a.finals, a.persistedName r = s := by
  rw [listing, List.mem_mergeSort, List.mem_map]
  rfl

/-- The transition lines are those of the listing: sorting lines sorts transitions. -/
theorem renderTriples_eq :
    ((a.triples a.persistedName).mergeSort Triple.notAfter).map Triple.render =
      a.listing.moves.map fun move => (Triple.ofMove move).render := by
  have htriples : a.triples a.persistedName = a.namedMoves.map Triple.ofMove := by
    rw [triples, namedMoves, List.map_flatMap]
    simp only [List.map_map]
    rfl
  have hsort : (a.namedMoves.map Triple.ofMove).mergeSort Triple.notAfter =
      a.listing.moves.map Triple.ofMove :=
    (List.map_mergeSort (f := Triple.ofMove) fun _ _ _ _ => rfl).symm
  rw [htriples, hsort, List.map_map]
  rfl

/-- **What is written is the listing**, and it is written unless a token cannot be a name. -/
theorem write_eq_ok_iff {text : String} : a.write = .ok text ↔
    (∀ token ∈ a.tokens.values, isWritable token = true) ∧
      Text.unlines a.listing.lines = text := by
  have hlines : a.listing.lines =
      [toString a.states.size, a.persistedName a.initial,
        String.intercalate "," a.listing.finals, a.listing.alphabetLine] ++
          ((a.triples a.persistedName).mergeSort Triple.notAfter).map Triple.render := by
    rw [renderTriples_eq]
    rfl
  rw [write, hlines]
  split
  · next token htoken =>
    refine iff_of_false nofun fun h => ?_
    have := List.find?_some htoken
    rw [h.1 token (List.mem_of_find?_eq_some htoken)] at this
    cases this
  · next hnone =>
    rw [List.find?_eq_none] at hnone
    simp only [Bool.not_eq_true', Bool.not_eq_false] at hnone
    rw [and_iff_right hnone, Except.ok.injEq]
    rfl

/-! ## Reading back -/

/-- The listing can be read line by line if no line is broken by a character of the alphabet. -/
theorem legible_listing (ha : a.SelfContained)
    (hwritable : ∀ token ∈ a.tokens.values, isWritable token = true)
    (hnewline : ¬ '\n' ∈ a.alphabet) (hsize : a.states.size < countLimit) :
    a.listing.Legible where
  count_lt := hsize
  initial := isWritable_persistedName hwritable ha.initial_mem
  finals := by
    intro s hs
    obtain ⟨r, hr, rfl⟩ := mem_finals_listing.1 hs
    exact isWritable_persistedName hwritable (ha.finals_subset r hr)
  moves := by
    rintro ⟨s, l, t⟩ hmove
    obtain ⟨r, u, hu, rfl, rfl⟩ := mem_moves_listing.1 hmove
    obtain ⟨hr, hu⟩ := ha.mem_of_mem_targets hu
    exact ⟨isWritable_persistedName hwritable hr, isWritable_persistedName hwritable hu⟩
  newline_not_mem := hnewline
  newline_not_read := by
    rintro ⟨s, l, t⟩ hmove rfl
    obtain ⟨r, u, hu, -, -⟩ := mem_moves_listing.1 hmove
    exact hnewline (ha.mem_alphabet hu)

/-- **The listing describes the automaton**, with its states under their persisted names. -/
theorem renamedBy_listing (ha : a.SelfContained) (hmentions : ∀ s ∈ a.states, a.Mentions s) :
    a.RenamedBy a.listing.automaton a.persistedName where
  separates := separates_persistedName
  states := by
    refine OrdSet.ext fun s => ?_
    rw [Listing.mem_states_automaton, OrdSet.mem_map]
    constructor
    · intro h
      rcases h with rfl | h | ⟨⟨s', l, t⟩, hmove, h⟩
      · exact ⟨a.initial, ha.initial_mem, rfl⟩
      · obtain ⟨r, hr, rfl⟩ := mem_finals_listing.1 h
        exact ⟨r, ha.finals_subset r hr, rfl⟩
      · obtain ⟨r, u, hu, rfl, rfl⟩ := mem_moves_listing.1 hmove
        obtain ⟨hr, hu⟩ := ha.mem_of_mem_targets hu
        exact h.elim (fun h => ⟨r, hr, h.symm⟩) fun h => ⟨u, hu, h.symm⟩
    · intro h
      obtain ⟨r, hr, rfl⟩ := h
      rcases hmentions r hr with rfl | hfinal | ⟨l, t, h | h⟩
      · exact .inl rfl
      · exact .inr (.inl (mem_finals_listing.2 ⟨r, hfinal, rfl⟩))
      · exact .inr (.inr ⟨_, mem_moves_listing.2 ⟨r, t, h, rfl, rfl⟩, .inl rfl⟩)
      · exact .inr (.inr ⟨_, mem_moves_listing.2 ⟨t, r, h, rfl, rfl⟩, .inr rfl⟩)
  initial := Listing.initial_automaton
  finals := by
    refine OrdSet.ext fun s => ?_
    rw [Listing.mem_finals_automaton, mem_finals_listing, OrdSet.mem_map]
  mem_targets := Listing.mem_targets_automaton.trans mem_moves_listing
  tokens := by
    intro s token
    rw [Listing.get?_tokens_automaton]
    constructor
    · intro h
      rw [Option.ite_none_right_eq_some] at h
      obtain ⟨hs, htoken⟩ := h
      obtain ⟨r, hr, rfl⟩ := mem_finals_listing.1 hs
      rw [tokenOfName_persistedName (ha.finals_subset r hr) hr] at htoken
      exact ⟨r, hr, htoken, rfl⟩
    · intro h
      obtain ⟨r, hr, htoken, rfl⟩ := h
      rw [if_pos (mem_finals_listing.2 ⟨r, hr, rfl⟩),
        tokenOfName_persistedName (ha.finals_subset r hr) hr, htoken]

/-- The listing describes the alphabet but for characters that cannot be entries, and of these
it still knows the ones that a transition reads. -/
theorem mem_alphabet_listing (ha : a.SelfContained) : c ∈ a.listing.automaton.alphabet ↔
    c ∈ a.alphabet ∧ (isLost c = false ∨ ∃ s t, t ∈ a.targets s (.symbol c)) := by
  rw [Listing.mem_alphabet_automaton]
  constructor
  · intro h
    rcases h with ⟨hc, hkept⟩ | ⟨⟨s, l, t⟩, hmove, rfl⟩
    · exact ⟨hc, .inl hkept⟩
    · obtain ⟨r, u, hu, -, -⟩ := mem_moves_listing.1 hmove
      exact ⟨ha.mem_alphabet hu, .inr ⟨r, u, hu⟩⟩
  · intro h
    obtain ⟨hc, hkept | ⟨r, u, hu⟩⟩ := h
    · exact .inl ⟨hc, hkept⟩
    · exact .inr ⟨_, mem_moves_listing.2 ⟨r, u, hu, rfl, rfl⟩, rfl⟩

/-- The last line is not blank if there is a transition or a character that is not. -/
theorem read_write_listing {text : String} (ha : a.SelfContained) (hwrite : a.write = .ok text)
    (hnewline : ¬ '\n' ∈ a.alphabet) (hsize : a.states.size < countLimit)
    (hlast : (∃ s l t, t ∈ a.targets s l) ∨ ∃ c, c ∈ a.alphabet ∧ Text.isBlank c = false) :
    read text = .ok a.listing.automaton := by
  obtain ⟨hwritable, rfl⟩ := write_eq_ok_iff.1 hwrite
  refine (legible_listing ha hwritable hnewline hsize).read_lines (hlast.imp_left fun h => ?_)
  obtain ⟨s, l, t, ht⟩ := h
  exact List.ne_nil_of_mem (mem_moves_listing.2 ⟨s, t, ht, rfl, rfl⟩)

/-- **An automaton that is written is read back under new names**, with the same moves, final
states and tokens, and with the same alphabet except for commas and blank characters that it
never reads. So it accepts the same words, and gives the same verdicts if it is deterministic.
A count of states is read if it fits in 64 bits. -/
theorem read_write {text : String} (ha : a.SelfContained) (hwrite : a.write = .ok text)
    (hnewline : ¬ '\n' ∈ a.alphabet) (hmentions : ∀ s ∈ a.states, a.Mentions s)
    (hlast : (∃ s l t, t ∈ a.targets s l) ∨ ∃ c, c ∈ a.alphabet ∧ Text.isBlank c = false)
    (hsize : a.states.size < countLimit) :
    ∃ b f, read text = .ok b ∧ a.RenamedBy b f ∧
      (∀ c, c ∈ b.alphabet ↔ c ∈ a.alphabet ∧
        (¬ (c = ',' ∨ Text.isBlank c = true) ∨ ∃ s t, t ∈ a.targets s (.symbol c))) ∧
      (∀ word, b.accepts word = a.accepts word) ∧
      (a.isDeterministic = true → ∀ word, b.run word = a.run word) := by
  have hrenamed := renamedBy_listing ha hmentions
  refine ⟨a.listing.automaton, a.persistedName,
    read_write_listing ha hwrite hnewline hsize hlast, hrenamed, fun c => ?_,
    hrenamed.accepts_eq ha, hrenamed.run_eq ha⟩
  rw [mem_alphabet_listing ha]
  simp [isLost]

/-- An automaton that reads the characters of the persisted form itself, with tokens that look
like its names and a final state without a token. -/
def punctuation : Automaton :=
  build "i"
    [("i", .symbol ',', "x"), ("i", .symbol ',', "m"), ("m", .epsilon, "y"),
      ("y", .symbol ' ', "z"), ("z", .symbol '&', "w"), ("w", .symbol '\\', "i")]
    [("x", some "q1"), ("y", some "A"), ("z", some "A"), ("w", some "A#2"), ("i", none)]

/-- A tab that is never read is lost from the alphabet, while a space that is read stays. -/
theorem read_write_punctuation :
    (punctuation.addSymbol '\t').SelfContained ∧ punctuation.states.size < countLimit ∧
      ∃ text b f, (punctuation.addSymbol '\t').write = .ok text ∧ read text = .ok b ∧
        (punctuation.addSymbol '\t').RenamedBy b f ∧ ' ' ∈ b.alphabet ∧ ¬ '\t' ∈ b.alphabet ∧
        ["", ",", ", ", ", &", ", &\\", ",&"].map b.accepts =
          [true, true, true, true, true, false] := by
  have hself : (punctuation.addSymbol '\t').SelfContained := (selfContained_build _ _ _).addSymbol
  have hcomma : "x" ∈ (punctuation.addSymbol '\t').targets "i" (.symbol ',') := by decide +kernel
  have hspace : "z" ∈ (punctuation.addSymbol '\t').targets "y" (.symbol ' ') := by decide +kernel
  have htab : ∀ s t, ¬ t ∈ (punctuation.addSymbol '\t').targets s (.symbol '\t') := by
    intro s t ht
    rw [targets_addSymbol, punctuation, mem_targets_build] at ht
    simp at ht
  have hmentions : ∀ s ∈ (punctuation.addSymbol '\t').states,
      (punctuation.addSymbol '\t').Mentions s := fun _ hs => (mentions_build hs).addSymbol
  have hsize : punctuation.states.size < countLimit := by decide +kernel
  obtain ⟨text, hwrite⟩ : ∃ text, (punctuation.addSymbol '\t').write = .ok text :=
    exists_of_isOk (by decide +kernel)
  obtain ⟨b, f, hread, hrenamed, halphabet, haccepts, -⟩ :=
    read_write hself hwrite (by decide +kernel) hmentions (.inl ⟨_, _, _, hcomma⟩) hsize
  refine ⟨hself, hsize, text, b, f, hwrite, hread, hrenamed, ?_, ?_, ?_⟩
  · exact (halphabet ' ').2 ⟨hself.mem_alphabet hspace, .inr ⟨_, _, hspace⟩⟩
  · intro h
    obtain ⟨-, hkept | ⟨s, t, ht⟩⟩ := (halphabet '\t').1 h
    · exact hkept (.inr (by decide))
    · exact htab s t ht
  · rw [List.map_congr_left fun word _ => haccepts word]
    decide +kernel

end Frontend.Automaton
