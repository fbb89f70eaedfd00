import Frontend.Proofs.Automaton.Paths

/-!
# Automata built step by step

What an automaton consists of after a transition or a final state has been added. The states
that a transition or a final state mentions become states, so an automaton that is built this
way from its initial state is self-contained all the time.
-/

namespace Frontend.Automaton

variable {a : Automaton} {s t source target : String} {l l' : Label} {c : Char}
  {token : Option String}

/-! ## Moves -/

theorem not_mem_targets_ofInitial {initial : String} :
    ¬ t ∈ (ofInitial initial).targets s l :=
  OrdSet.not_mem_empty

theorem mem_targets_addTransition :
    t ∈ (a.addTransition source l' target).targets s l ↔
      t ∈ a.targets s l ∨ s = source ∧ l = l' ∧ t = target := by
  rw [targets, addTransition, OrdMap.getD, OrdMap.get?_alter]
  split
  · next h =>
    obtain ⟨rfl, rfl⟩ := Move.mk.inj h
    rw [Option.getD_some, OrdSet.mem_insert, targets, OrdMap.getD]
    simp [or_comm]
  · next h =>
    have hno : ¬ (s = source ∧ l = l' ∧ t = target) := by
      intro h
      obtain ⟨rfl, rfl, -⟩ := h
      exact h rfl
    rw [targets, OrdMap.getD, or_iff_left hno]

/-! ## States and characters -/

theorem mem_states_addTransition :
    s ∈ (a.addTransition source l target).states ↔ s = target ∨ s = source ∨ s ∈ a.states := by
  rw [addTransition, OrdSet.mem_insert, OrdSet.mem_insert]

theorem mem_states_addFinal : s ∈ (a.addFinal t token).states ↔ s = t ∨ s ∈ a.states :=
  OrdSet.mem_insert

theorem mem_finals_addFinal : s ∈ (a.addFinal t token).finals ↔ s = t ∨ s ∈ a.finals :=
  OrdSet.mem_insert

theorem mem_alphabet_addTransition :
    c ∈ (a.addTransition source l target).alphabet ↔ c ∈ a.alphabet ∨ l = .symbol c := by
  rw [addTransition, OrdSet.mem_union, Label.mem_symbols]

/-! ## Self-contained automata -/

theorem selfContained_ofInitial (initial : String) : (ofInitial initial).SelfContained where
  initial_mem := OrdSet.mem_singleton.2 rfl
  finals_subset := fun _ h => absurd h OrdSet.not_mem_empty
  mem_of_mem_targets := fun h => absurd h not_mem_targets_ofInitial
  mem_alphabet := fun h => absurd h not_mem_targets_ofInitial

theorem SelfContained.addTransition (ha : a.SelfContained) :
    (a.addTransition source l target).SelfContained where
  initial_mem := mem_states_addTransition.2 (.inr (.inr ha.initial_mem))
  finals_subset := fun s hs => mem_states_addTransition.2 (.inr (.inr (ha.finals_subset s hs)))
  mem_of_mem_targets := by
    intro s l' t ht
    rw [mem_states_addTransition, mem_states_addTransition]
    rcases mem_targets_addTransition.1 ht with ht | ⟨rfl, -, rfl⟩
    · obtain ⟨hs, ht⟩ := ha.mem_of_mem_targets ht
      exact ⟨.inr (.inr hs), .inr (.inr ht)⟩
    · exact ⟨.inr (.inl rfl), .inl rfl⟩
  mem_alphabet := by
    intro s c t ht
    rw [mem_alphabet_addTransition]
    rcases mem_targets_addTransition.1 ht with ht | ⟨-, rfl, -⟩
    · exact .inl (ha.mem_alphabet ht)
    · exact .inr rfl

theorem SelfContained.addFinal (ha : a.SelfContained) : (a.addFinal t token).SelfContained where
  initial_mem := mem_states_addFinal.2 (.inr ha.initial_mem)
  finals_subset := by
    intro s hs
    exact mem_states_addFinal.2 ((mem_finals_addFinal.1 hs).imp_right (ha.finals_subset s))
  mem_of_mem_targets := by
    intro s l t ht
    obtain ⟨hs, ht⟩ := ha.mem_of_mem_targets ht
    exact ⟨mem_states_addFinal.2 (.inr hs), mem_states_addFinal.2 (.inr ht)⟩
  mem_alphabet := fun ht => ha.mem_alphabet ht

/-- More characters do no harm. -/
theorem SelfContained.addSymbol (ha : a.SelfContained) : (a.addSymbol c).SelfContained where
  initial_mem := ha.initial_mem
  finals_subset := ha.finals_subset
  mem_of_mem_targets := ha.mem_of_mem_targets
  mem_alphabet := fun ht => OrdSet.mem_insert.2 (.inr (ha.mem_alphabet ht))

/-! ## Many transitions and final states -/

/-- Adds transitions one after the other. -/
def addTransitions (a : Automaton) (transitions : List (String × Label × String)) : Automaton :=
  transitions.foldl (fun a (s, l, t) => a.addTransition s l t) a

/-- Adds final states one after the other. -/
def addFinals (a : Automaton) (finals : List (String × Option String)) : Automaton :=
  finals.foldl (fun a (s, token) => a.addFinal s token) a

/-- The automaton of some transitions and final states. -/
def build (initial : String) (transitions : List (String × Label × String))
    (finals : List (String × Option String)) : Automaton :=
  ((ofInitial initial).addTransitions transitions).addFinals finals

section Many

variable {transitions : List (String × Label × String)} {finals : List (String × Option String)}

theorem mem_targets_addTransitions :
    t ∈ (a.addTransitions transitions).targets s l ↔
      t ∈ a.targets s l ∨ (s, l, t) ∈ transitions := by
  induction transitions generalizing a with
  | nil => exact (or_iff_left List.not_mem_nil).symm
  | cons e transitions ih =>
    obtain ⟨source, l', target⟩ := e
    rw [addTransitions, List.foldl_cons, ← addTransitions, ih, mem_targets_addTransition,
      List.mem_cons, or_assoc, Prod.mk.injEq, Prod.mk.injEq]

theorem mem_states_addTransitions :
    s ∈ (a.addTransitions transitions).states ↔
      s ∈ a.states ∨ ∃ e ∈ transitions, s = e.1 ∨ s = e.2.2 := by
  induction transitions generalizing a with
  | nil => simp [addTransitions]
  | cons e transitions ih =>
    rw [addTransitions, List.foldl_cons, ← addTransitions, ih, mem_states_addTransition,
      List.exists_mem_cons_iff]
    simp only [or_assoc, or_left_comm]

theorem mem_alphabet_addTransitions :
    c ∈ (a.addTransitions transitions).alphabet ↔
      c ∈ a.alphabet ∨ ∃ e ∈ transitions, e.2.1 = .symbol c := by
  induction transitions generalizing a with
  | nil => simp [addTransitions]
  | cons e transitions ih =>
    rw [addTransitions, List.foldl_cons, ← addTransitions, ih, mem_alphabet_addTransition,
      List.exists_mem_cons_iff, or_assoc]

/-- Transitions change neither the initial state nor the final states nor their tokens. -/
theorem addTransitions_frame :
    (a.addTransitions transitions).initial = a.initial ∧
      (a.addTransitions transitions).finals = a.finals ∧
      (a.addTransitions transitions).tokens = a.tokens := by
  induction transitions generalizing a with
  | nil => exact ⟨rfl, rfl, rfl⟩
  | cons e transitions ih => exact ih (a := a.addTransition e.1 e.2.1 e.2.2)

theorem mem_states_addFinals :
    s ∈ (a.addFinals finals).states ↔ s ∈ a.states ∨ s ∈ finals.map Prod.fst := by
  induction finals generalizing a with
  | nil => simp [addFinals]
  | cons e finals ih =>
    rw [addFinals, List.foldl_cons, ← addFinals, ih, mem_states_addFinal, List.map_cons,
      List.mem_cons]
    tauto

theorem mem_finals_addFinals :
    s ∈ (a.addFinals finals).finals ↔ s ∈ a.finals ∨ s ∈ finals.map Prod.fst := by
  induction finals generalizing a with
  | nil => simp [addFinals]
  | cons e finals ih =>
    rw [addFinals, List.foldl_cons, ← addFinals, ih, mem_finals_addFinal, List.map_cons,
      List.mem_cons]
    tauto

/-- Final states change neither the initial state nor the moves. -/
theorem addFinals_frame :
    (a.addFinals finals).initial = a.initial ∧
      (a.addFinals finals).transitions = a.transitions := by
  induction finals generalizing a with
  | nil => exact ⟨rfl, rfl⟩
  | cons e finals ih => exact ih (a := a.addFinal e.1 e.2)

theorem targets_addFinals : (a.addFinals finals).targets s l = a.targets s l := by
  rw [targets, addFinals_frame.2, targets]

theorem selfContained_addTransitions (ha : a.SelfContained) :
    (a.addTransitions transitions).SelfContained := by
  induction transitions generalizing a with
  | nil => exact ha
  | cons e transitions ih => exact ih ha.addTransition

theorem selfContained_addFinals (ha : a.SelfContained) : (a.addFinals finals).SelfContained := by
  induction finals generalizing a with
  | nil => exact ha
  | cons e finals ih => exact ih ha.addFinal

end Many

theorem selfContained_build (initial : String) (transitions : List (String × Label × String))
    (finals : List (String × Option String)) : (build initial transitions finals).SelfContained :=
  selfContained_addFinals (selfContained_addTransitions (selfContained_ofInitial initial))

theorem mem_targets_build {initial : String} {transitions : List (String × Label × String)}
    {finals : List (String × Option String)} :
    t ∈ (build initial transitions finals).targets s l ↔ (s, l, t) ∈ transitions := by
  rw [build, targets_addFinals, mem_targets_addTransitions]
  exact or_iff_right not_mem_targets_ofInitial

/-- A state is initial, final or at one end of a transition. -/
def Mentions (a : Automaton) (s : String) : Prop :=
  s = a.initial ∨ s ∈ a.finals ∨ ∃ l t, t ∈ a.targets s l ∨ s ∈ a.targets t l

theorem targets_addSymbol : (a.addSymbol c).targets s l = a.targets s l := rfl

theorem Mentions.addSymbol (h : a.Mentions s) : (a.addSymbol c).Mentions s := h

/-- An automaton that is built this way has no other states than those mentioned. -/
theorem mentions_build {initial : String} {transitions : List (String × Label × String)}
    {finals : List (String × Option String)} (h : s ∈ (build initial transitions finals).states) :
    (build initial transitions finals).Mentions s := by
  simp only [Mentions, mem_targets_build]
  rw [build, mem_finals_addFinals, addFinals_frame.1, addTransitions_frame.1]
  rw [build, mem_states_addFinals, mem_states_addTransitions] at h
  rcases h with (h | ⟨⟨source, l, target⟩, he, h | h⟩) | h
  · exact .inl (OrdSet.mem_singleton.1 h)
  · exact .inr (.inr ⟨l, target, .inl (h ▸ he)⟩)
  · exact .inr (.inr ⟨l, source, .inr (h ▸ he)⟩)
  · exact .inr (.inl (.inr h))

/-- Final states whose names say which token they have, if any, have that token. -/
theorem get?_tokens_addFinals {g : String → Option String} {names : List String}
    (ha : ∀ s, a.tokens.get? s = none ∨ a.tokens.get? s = g s) :
    (a.addFinals (names.map fun s => (s, g s))).tokens.get? s =
      if s ∈ names then g s else a.tokens.get? s := by
  induction names generalizing a with
  | nil => exact (if_neg List.not_mem_nil).symm
  | cons name names ih =>
    have hstep : ∀ s, (a.addFinal name (g name)).tokens.get? s =
        if s = name then g s else a.tokens.get? s := by
      intro s
      cases hg : g name with
      | none =>
        -- A final state without a token had none before.
        split
        · next h =>
          subst h
          rw [hg]
          exact (ha s).elim id fun h => h.trans hg
        · rfl
      | some token =>
        rw [addFinal, OrdMap.get?_insert]
        split
        · next h => rw [h, hg]
        · rfl
    have hagree : ∀ s, (a.addFinal name (g name)).tokens.get? s = none ∨
        (a.addFinal name (g name)).tokens.get? s = g s := by
      intro s
      rw [hstep]
      split
      · exact .inr rfl
      · exact ha s
    rw [List.map_cons, addFinals, List.foldl_cons, ← addFinals, ih hagree, hstep]
    by_cases hmem : s ∈ names
    · rw [if_pos hmem, if_pos (List.mem_cons_of_mem _ hmem)]
    · rw [if_neg hmem]
      exact if_congr (by rw [List.mem_cons, or_iff_left hmem]) rfl rfl

end Frontend.Automaton
