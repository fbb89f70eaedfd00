import Frontend.Proofs.Automaton.Paths

/-!
# Automata whose states are sets

The automaton of an expression and the subset construction have deterministic automata whose
states are sets that were reached step by step, each under a name of its own. `SetSystem` is
what the two have in common, and `SetSystem.automaton` is the automaton.

After a word such an automaton is in the state of the set that the steps lead to, and it is
stuck once this set is empty (`path_iff`). So it accepts the words that lead to a final set
(`accepts_automaton`), and the verdict has the token of that set (`token_automaton`).
-/

namespace Frontend

/-- Sets that are reached step by step, their names, and what they recognise. -/
structure SetSystem (α : Type) [LT α] where
  alphabet : OrdSet Char
  start : OrdSet α
  /-- The set that reading a character leads to; there is no state for the empty one. -/
  next : OrdSet α → Char → OrdSet α
  isFinal : OrdSet α → Bool
  token? : OrdSet α → Option String
  /-- The sets that have a state. -/
  sets : List (OrdSet α)
  name : OrdSet α → String

namespace SetSystem

variable {α : Type} [LT α] {m : SetSystem α} {here : OrdSet α} {c : Char} {w : List Char}
  {t : String}

/-- The sets that recognise a word. -/
def finals (m : SetSystem α) : List (OrdSet α) := m.sets.filter m.isFinal

/-- The moves between the states. -/
def moves (m : SetSystem α) : List (Move × OrdSet String) :=
  m.sets.flatMap fun here =>
    m.alphabet.toList.filterMap fun c =>
      if (m.next here c).isEmpty then none
      else some (⟨m.name here, .symbol c⟩, OrdSet.singleton (m.name (m.next here c)))

/-- The automaton with a state for each set. -/
def automaton (m : SetSystem α) : Automaton where
  states := OrdSet.ofList (m.sets.map m.name)
  alphabet := m.alphabet
  initial := m.name m.start
  finals := OrdSet.ofList (m.finals.map m.name)
  transitions := OrdMap.ofList m.moves
  tokens := OrdMap.ofList (m.finals.filterMap fun s => (m.token? s).map fun t => (m.name s, t))

/-- The set that a word leads to. -/
def after (m : SetSystem α) (w : List Char) : OrdSet α := w.foldl m.next m.start

/-- The sets have all states that are needed, under different names, and the empty set leads
nowhere. -/
structure Proper (m : SetSystem α) : Prop where
  start_mem : m.start ∈ m.sets
  start_nonempty : ∃ x, x ∈ m.start
  next_mem : ∀ here ∈ m.sets, ∀ c, (∃ x, x ∈ m.next here c) → m.next here c ∈ m.sets
  mem_alphabet : ∀ here c, (∃ x, x ∈ m.next here c) → c ∈ m.alphabet
  name_inj : ∀ s ∈ m.sets, ∀ t ∈ m.sets, m.name s = m.name t → s = t
  next_empty : ∀ c x, ¬ x ∈ m.next ∅ c
  isFinal_empty : m.isFinal ∅ = false

/-! ## The moves -/

theorem mem_moves {move : Move} {ts : OrdSet String} :
    (move, ts) ∈ m.moves ↔ ∃ here ∈ m.sets, ∃ c ∈ m.alphabet, (∃ x, x ∈ m.next here c) ∧
      move = ⟨m.name here, .symbol c⟩ ∧ ts = OrdSet.singleton (m.name (m.next here c)) := by
  rw [moves, List.mem_flatMap]
  refine exists_congr fun here => and_congr_right fun _ => ?_
  rw [List.mem_filterMap]
  refine exists_congr fun c => and_congr_right fun _ => ?_
  by_cases h : (m.next here c).isEmpty = true
  · rw [if_pos h]
    have hnone : ¬ ∃ x, x ∈ m.next here c := by
      rw [not_exists]
      exact OrdSet.isEmpty_iff.1 h
    simp [hnone]
  · rw [if_neg h]
    have hsome : ∃ x, x ∈ m.next here c := OrdSet.isEmpty_eq_false_iff.1 (Bool.not_eq_true _ ▸ h)
    simp [hsome, eq_comm]

/-- The entries of one move agree, since the names tell the sets apart. -/
theorem get?_transitions (hm : m.Proper) {move : Move} {ts : OrdSet String} :
    m.automaton.transitions.get? move = some ts ↔ (move, ts) ∈ m.moves := by
  refine ⟨OrdMap.mem_of_get?_ofList, fun h => OrdMap.get?_ofList_eq h fun ts' h' => ?_⟩
  obtain ⟨here, hhere, c, -, -, rfl, rfl⟩ := mem_moves.1 h
  obtain ⟨here', hhere', c', -, -, hmove, rfl⟩ := mem_moves.1 h'
  rw [Move.mk.injEq, Label.symbol.injEq] at hmove
  rw [hm.name_inj _ hhere _ hhere' hmove.1, hmove.2]

theorem mem_targets_symbol (hm : m.Proper) (hhere : here ∈ m.sets) :
    t ∈ m.automaton.targets (m.name here) (.symbol c) ↔
      (∃ x, x ∈ m.next here c) ∧ t = m.name (m.next here c) := by
  rw [Automaton.mem_targets_iff]
  constructor
  · intro h
    obtain ⟨ts, hts, ht⟩ := h
    obtain ⟨here', hhere', c', -, hsome, hmove, rfl⟩ := mem_moves.1 ((get?_transitions hm).1 hts)
    rw [Move.mk.injEq, Label.symbol.injEq] at hmove
    obtain ⟨hname, rfl⟩ := hmove
    obtain rfl := hm.name_inj _ hhere _ hhere' hname
    exact ⟨hsome, OrdSet.mem_singleton.1 ht⟩
  · intro h
    obtain ⟨hsome, rfl⟩ := h
    refine ⟨_, (get?_transitions hm).2 (mem_moves.2 ⟨here, hhere, c, ?_, hsome, rfl, rfl⟩),
      OrdSet.mem_singleton.2 rfl⟩
    exact hm.mem_alphabet here c hsome

theorem not_mem_targets_epsilon {s : String} (hm : m.Proper) :
    ¬ t ∈ m.automaton.targets s .epsilon := by
  rw [Automaton.mem_targets_iff]
  intro h
  obtain ⟨ts, hts, -⟩ := h
  obtain ⟨here, -, c, -, -, hmove, -⟩ := mem_moves.1 ((get?_transitions hm).1 hts)
  cases congrArg Move.label hmove

/-! ## Words -/

theorem foldl_next_empty (hm : m.Proper) : ∀ x, ¬ x ∈ w.foldl m.next ∅ := by
  induction w with
  | nil => exact fun x => OrdSet.not_mem_empty
  | cons c w ih =>
    have h : m.next ∅ c = ∅ := OrdSet.eq_empty_iff.2 (hm.next_empty c)
    rw [List.foldl_cons, h]
    exact ih

/-- **A path leads to the set that the steps lead to**, unless this set is empty. -/
theorem path_iff (hm : m.Proper) (hhere : here ∈ m.sets) (hsome : ∃ x, x ∈ here) :
    m.automaton.Path (m.name here) w t ↔
      (∃ x, x ∈ w.foldl m.next here) ∧ w.foldl m.next here ∈ m.sets ∧
        t = m.name (w.foldl m.next here) := by
  induction w generalizing here with
  | nil =>
    rw [List.foldl_nil]
    constructor
    · intro h
      cases h with
      | refl => exact ⟨hsome, hhere, rfl⟩
      | silent hstep => exact absurd hstep (not_mem_targets_epsilon hm)
    · intro h
      obtain ⟨-, -, rfl⟩ := h
      exact .refl _
  | cons c w ih =>
    rw [List.foldl_cons]
    constructor
    · intro h
      cases h with
      | silent hstep => exact absurd hstep (not_mem_targets_epsilon hm)
      | read hstep rest =>
        obtain ⟨hnext, rfl⟩ := (mem_targets_symbol hm hhere).1 hstep
        exact (ih (hm.next_mem here hhere c hnext) hnext).1 rest
    · intro h
      -- From the empty set nothing but the empty set is reached, and that is no state.
      by_cases hnext : ∃ x, x ∈ m.next here c
      · exact .read ((mem_targets_symbol hm hhere).2 ⟨hnext, rfl⟩)
          ((ih (hm.next_mem here hhere c hnext) hnext).2 h)
      · obtain ⟨⟨x, hx⟩, -⟩ := h
        rw [OrdSet.eq_empty_iff.2 (not_exists.1 hnext)] at hx
        exact absurd hx (foldl_next_empty hm x)

/-- The states that a word reaches. -/
theorem mem_reached_automaton (hm : m.Proper) :
    t ∈ m.automaton.reached w ↔
      (∃ x, x ∈ m.after w) ∧ m.after w ∈ m.sets ∧ t = m.name (m.after w) := by
  rw [Automaton.mem_reached]
  exact path_iff hm hm.start_mem hm.start_nonempty

theorem foldl_next_mem_sets (hm : m.Proper) (hhere : here ∈ m.sets)
    (h : ∃ x, x ∈ w.foldl m.next here) : w.foldl m.next here ∈ m.sets := by
  induction w using List.reverseRecOn with
  | nil => exact hhere
  | append_singleton w c ih =>
    rw [List.foldl_concat] at h ⊢
    refine hm.next_mem _ (ih (OrdSet.exists_mem_of_ne_empty fun hempty => ?_)) c h
    rw [hempty] at h
    exact h.elim (hm.next_empty c)

theorem after_mem_sets (hm : m.Proper) (h : ∃ x, x ∈ m.after w) : m.after w ∈ m.sets :=
  foldl_next_mem_sets hm hm.start_mem h

theorem exists_mem_of_isFinal (hm : m.Proper) (h : m.isFinal here = true) : ∃ x, x ∈ here := by
  refine OrdSet.exists_mem_of_ne_empty fun hempty => ?_
  rw [hempty, hm.isFinal_empty] at h
  cases h

theorem mem_finals_iff (hm : m.Proper) (hhere : here ∈ m.sets) :
    m.name here ∈ m.automaton.finals ↔ m.isFinal here = true := by
  have hfinals : m.automaton.finals = OrdSet.ofList (m.finals.map m.name) := rfl
  rw [hfinals, OrdSet.mem_ofList, List.mem_map]
  constructor
  · intro h
    obtain ⟨s, hs, hname⟩ := h
    obtain ⟨hs, hfinal⟩ := List.mem_filter.1 hs
    rwa [← hm.name_inj _ hs _ hhere hname]
  · intro h
    exact ⟨here, List.mem_filter.2 ⟨hhere, h⟩, rfl⟩

/-- **The automaton accepts the words that lead to a final set.** -/
theorem accepts_automaton (hm : m.Proper) {word : String} :
    m.automaton.accepts word = m.isFinal (m.after word.toList) := by
  rw [Bool.eq_iff_iff, Automaton.accepts_iff]
  constructor
  · intro h
    obtain ⟨t, ht, hpath⟩ := h
    obtain ⟨-, hmem, rfl⟩ := (mem_reached_automaton hm).1 (Automaton.mem_reached.2 hpath)
    exact (mem_finals_iff hm hmem).1 ht
  · intro h
    have hsome := exists_mem_of_isFinal hm h
    have hmem := after_mem_sets hm hsome
    exact ⟨_, (mem_finals_iff hm hmem).2 h,
      Automaton.mem_reached.1 ((mem_reached_automaton hm).2 ⟨hsome, hmem, rfl⟩)⟩

/-! ## The automaton as a whole -/

theorem isDeterministic_automaton (hm : m.Proper) : m.automaton.isDeterministic = true := by
  rw [Automaton.isDeterministic, List.all_eq_true]
  intro entry h
  obtain ⟨move, ts⟩ := entry
  obtain ⟨here, -, c, -, -, rfl, rfl⟩ :=
    mem_moves.1 ((get?_transitions hm).1 (OrdMap.mem_toList_iff.1 h))
  rfl

theorem get?_tokens (hm : m.Proper) (hhere : here ∈ m.sets) :
    m.automaton.tokens.get? (m.name here) =
      if m.isFinal here = true then m.token? here else none := by
  have htokens : m.automaton.tokens =
      OrdMap.ofList (m.finals.filterMap fun s => (m.token? s).map fun t => (m.name s, t)) := rfl
  -- Different sets have different names, so at most one entry is under this name.
  have hentry : ∀ t, (m.name here, t) ∈ m.finals.filterMap
      (fun s => (m.token? s).map fun t => (m.name s, t)) ↔
        m.isFinal here = true ∧ m.token? here = some t := by
    intro t
    rw [List.mem_filterMap]
    constructor
    · intro h
      obtain ⟨s, hs, h⟩ := h
      obtain ⟨hs, hfinal⟩ := List.mem_filter.1 hs
      obtain ⟨t', ht', heq⟩ := Option.map_eq_some_iff.1 h
      obtain ⟨hname, rfl⟩ := Prod.mk.inj heq
      obtain rfl := hm.name_inj _ hs _ hhere hname
      exact ⟨hfinal, ht'⟩
    · intro h
      obtain ⟨hfinal, ht⟩ := h
      exact ⟨here, List.mem_filter.2 ⟨hhere, hfinal⟩, by rw [ht, Option.map_some]⟩
  rw [htokens]
  split
  · next hfinal =>
    cases ht : m.token? here with
    | none =>
      refine OrdMap.get?_ofList_eq_none fun t h => ?_
      cases ht.symm.trans ((hentry t).1 h).2
    | some t =>
      refine OrdMap.get?_ofList_eq ((hentry t).2 ⟨hfinal, ht⟩) fun t' h => ?_
      exact (Option.some.inj (ht.symm.trans ((hentry t').1 h).2)).symm
  · next hfinal =>
    exact OrdMap.get?_ofList_eq_none fun t h => hfinal ((hentry t).1 h).1

/-- **The verdict on an accepted word has the token of the set that the word leads to.** -/
theorem token_automaton (hm : m.Proper) {word : String}
    (h : m.isFinal (m.after word.toList) = true) :
    (m.automaton.run word).token = m.token? (m.after word.toList) := by
  have hsome := exists_mem_of_isFinal hm h
  have hmem := after_mem_sets hm hsome
  have hrun : m.automaton.run word =
      ⟨true, m.automaton.tokens.get? (m.name (m.after word.toList))⟩ := by
    refine Automaton.run_of_final fun t => ?_
    rw [← Automaton.mem_reached, mem_reached_automaton hm]
    constructor
    · intro h
      obtain ⟨-, -, -, rfl⟩ := h
      rfl
    · intro heq
      subst heq
      exact ⟨(mem_finals_iff hm hmem).2 h, hsome, hmem, rfl⟩
  rw [hrun, get?_tokens hm hmem, if_pos h]

theorem wellFormed_automaton (hm : m.Proper) : m.automaton.WellFormed where
  initial_mem := OrdSet.mem_ofList.2 (List.mem_map_of_mem hm.start_mem)
  finals_subset := by
    intro s hs
    obtain ⟨x, hx, rfl⟩ := List.mem_map.1 (OrdSet.mem_ofList.1 hs)
    exact OrdSet.mem_ofList.2 (List.mem_map_of_mem (List.mem_filter.1 hx).1)
  source_mem := by
    intro move ts h
    obtain ⟨here, hhere, c, -, -, rfl, -⟩ := mem_moves.1 ((get?_transitions hm).1 h)
    exact OrdSet.mem_ofList.2 (List.mem_map_of_mem hhere)
  target_mem := by
    intro move ts h t ht
    obtain ⟨here, hhere, c, -, hsome, -, rfl⟩ := mem_moves.1 ((get?_transitions hm).1 h)
    rw [OrdSet.mem_singleton.1 ht]
    exact OrdSet.mem_ofList.2 (List.mem_map_of_mem (hm.next_mem here hhere c hsome))
  target_exists := by
    intro move ts h
    obtain ⟨here, -, c, -, -, -, rfl⟩ := mem_moves.1 ((get?_transitions hm).1 h)
    exact ⟨_, OrdSet.mem_singleton.2 rfl⟩
  symbol_mem := by
    intro s c ts h
    obtain ⟨here, -, c', hc', -, hmove, -⟩ := mem_moves.1 ((get?_transitions hm).1 h)
    rw [Move.mk.injEq, Label.symbol.injEq] at hmove
    rw [hmove.2]
    exact hc'
  token_final := by
    intro s t h
    obtain ⟨x, hx, heq⟩ := List.mem_filterMap.1 (OrdMap.mem_of_get?_ofList h)
    obtain ⟨t', -, heq⟩ := Option.map_eq_some_iff.1 heq
    obtain ⟨rfl, -⟩ := Prod.mk.inj heq
    exact OrdSet.mem_ofList.2 (List.mem_map_of_mem hx)

end SetSystem

end Frontend
