import Frontend.Proofs.Automaton.Accessible
import Frontend.Proofs.Lists

/-!
# Canonical names do not depend on the names before

Let `b` be the automaton `a` under new names, where `a` is deterministic and all its states are
reached. A move of such an automaton leads to one state, so the order in which the search for
states expands them depends on the moves and not on the names: what it lists for `b` is what it
lists for `a`, under the new names (`RenamedBy.canonicalOrder_eq`). So both give a state and its
new name the same canonical name, and an automaton is known from another one and the names that
its states have there (`RenamedBy.eq`). Hence the canonical forms are equal
(`RenamedBy.canonical_eq`).
-/

namespace Frontend.Automaton

variable {a b c : Automaton} {f g : String → String} {s t : String} {w : List Char}

/-! ## Names one after the other -/

/-- Only the names of the states count. -/
theorem RenamedBy.congr (h : a.RenamedBy b f) (ha : a.SelfContained)
    (hfg : ∀ s ∈ a.states, f s = g s) : a.RenamedBy b g where
  separates := by
    intro s hs t ht heq
    rw [← hfg s hs, ← hfg t ht] at heq
    exact h.separates s hs t ht heq
  states := by
    ext s
    rw [h.states, OrdSet.mem_map, OrdSet.mem_map]
    exact exists_congr fun r => and_congr_right fun hr => by rw [hfg r hr]
  initial := by rw [h.initial, hfg _ ha.initial_mem]
  finals := by
    ext s
    rw [h.finals, OrdSet.mem_map, OrdSet.mem_map]
    exact exists_congr fun r => and_congr_right fun hr => by rw [hfg r (ha.finals_subset r hr)]
  mem_targets := by
    intro s l t
    rw [h.mem_targets]
    refine exists_congr fun r => exists_congr fun u => and_congr_right fun hu => ?_
    obtain ⟨hr, hu⟩ := ha.mem_of_mem_targets hu
    rw [hfg r hr, hfg u hu]
  tokens := by
    intro s token
    rw [h.tokens]
    exact exists_congr fun r => and_congr_right fun hr => by rw [hfg r (ha.finals_subset r hr)]

/-- An automaton is itself under the names that it has. -/
theorem RenamedBy.refl (ha : a.WellFormed) : a.RenamedBy a id where
  separates := fun _ _ _ _ h => h
  states := by
    ext s
    simp [OrdSet.mem_map]
  initial := rfl
  finals := by
    ext s
    simp [OrdSet.mem_map]
  mem_targets := by simp
  tokens := by
    intro s token
    constructor
    · exact fun h => ⟨s, ha.token_final s token h, h, rfl⟩
    · rintro ⟨_, -, h, rfl⟩
      exact h

theorem RenamedBy.trans (h : a.RenamedBy b f) (h' : b.RenamedBy c g) (ha : a.SelfContained) :
    a.RenamedBy c (g ∘ f) where
  separates := by
    have hmem : ∀ s ∈ a.states, f s ∈ b.states := by
      intro s hs
      rw [h.states]
      exact OrdSet.mem_map.2 ⟨s, hs, rfl⟩
    intro s hs t ht heq
    exact h.separates s hs t ht (h'.separates _ (hmem s hs) _ (hmem t ht) heq)
  states := by
    ext s
    rw [h'.states, h.states]
    simp [OrdSet.mem_map]
  initial := by rw [h'.initial, h.initial, Function.comp_apply]
  finals := by
    ext s
    rw [h'.finals, h.finals]
    simp [OrdSet.mem_map]
  mem_targets := by
    intro s l t
    rw [h'.mem_targets]
    constructor
    · intro hmove
      obtain ⟨_, _, hmove', rfl, rfl⟩ := hmove
      obtain ⟨r, u, hu, rfl, rfl⟩ := h.mem_targets.1 hmove'
      exact ⟨r, u, hu, rfl, rfl⟩
    · intro hmove
      obtain ⟨r, u, hu, rfl, rfl⟩ := hmove
      exact ⟨f r, f u, h.mem_targets.2 ⟨r, u, hu, rfl, rfl⟩, rfl, rfl⟩
  tokens := by
    intro s token
    rw [h'.tokens]
    constructor
    · intro htoken
      obtain ⟨_, -, htoken', rfl⟩ := htoken
      obtain ⟨r, hr, hget, rfl⟩ := h.tokens.1 htoken'
      exact ⟨r, hr, hget, rfl⟩
    · intro htoken
      obtain ⟨r, hr, hget, rfl⟩ := htoken
      refine ⟨f r, ?_, h.tokens.2 ⟨r, hr, hget, rfl⟩, rfl⟩
      exact (h.mem_finals ha (ha.finals_subset r hr)).2 hr

/-! ## Automata with the same parts -/

/-- A table of moves is known from the states that each move leads to, if each leads somewhere. -/
theorem transitions_eq (ha : a.WellFormed) (hb : b.WellFormed)
    (h : ∀ s l t, t ∈ a.targets s l ↔ t ∈ b.targets s l) : a.transitions = b.transitions := by
  have hget : ∀ {a b : Automaton}, a.WellFormed →
      (∀ s l t, t ∈ a.targets s l ↔ t ∈ b.targets s l) →
      ∀ {move ts}, a.transitions.get? move = some ts → b.transitions.get? move = some ts := by
    intro a b ha h move ts hts
    obtain ⟨t, ht⟩ := ha.target_exists move ts hts
    obtain ⟨us, hus, -⟩ := mem_targets_iff.1 ((h _ _ t).1 (mem_targets_iff.2 ⟨ts, hts, ht⟩))
    rw [hus]
    congr 1
    ext u
    have hu := h move.source move.label u
    rw [targets, targets, OrdMap.getD, OrdMap.getD, hts, hus] at hu
    exact hu.symm
  ext move ts
  exact ⟨hget ha h, hget hb fun s l t => (h s l t).symm⟩

/-- **An automaton is known from another one and the names that its states have there.** -/
theorem RenamedBy.eq (hb : a.RenamedBy b f) (hc : a.RenamedBy c f) (hwb : b.WellFormed)
    (hwc : c.WellFormed) (halphabet : b.alphabet = c.alphabet) : b = c := by
  have hstates : b.states = c.states := hb.states.trans hc.states.symm
  have hinitial : b.initial = c.initial := hb.initial.trans hc.initial.symm
  have hfinals : b.finals = c.finals := hb.finals.trans hc.finals.symm
  have htransitions : b.transitions = c.transitions :=
    transitions_eq hwb hwc fun s l t => hb.mem_targets.trans hc.mem_targets.symm
  have htokens : b.tokens = c.tokens := by
    ext s token
    exact hb.tokens.trans hc.tokens.symm
  cases b
  cases c
  simp_all

/-! ## The search for states -/

theorem mem_successors (ha : a.SelfContained) : t ∈ a.successors s ↔ ∃ l, t ∈ a.targets s l := by
  rw [successors, List.mem_flatMap]
  constructor
  · intro h
    obtain ⟨l, -, ht⟩ := h
    exact ⟨l, ht⟩
  · intro h
    obtain ⟨l, ht⟩ := h
    refine ⟨l, ?_, ht⟩
    rw [labels]
    cases l with
    | epsilon => exact List.mem_cons_self
    | symbol c => exact .tail _ (List.mem_map_of_mem (ha.mem_alphabet ht))

/-- No more states are reached than moves have targets, the initial state aside. -/
theorem atMost_reachable_successors :
    AtMost (1 + a.transitionCount) (Reachable a.successors [a.initial]) := by
  rw [← length_allTargets, ← List.length_singleton (a := a.initial), ← List.length_append]
  refine atMost_of_mem _ fun t ht => ?_
  refine ht.induction (fun s hs => List.mem_append_left _ hs) fun s t _ ht => ?_
  obtain ⟨l, -, ht⟩ := List.mem_flatMap.1 ht
  exact List.mem_append_right _ (mem_allTargets ht)

/-- The canonical order lists states only. -/
theorem mem_states_of_mem_canonicalOrder (ha : a.SelfContained) (h : s ∈ a.canonicalOrder) :
    s ∈ a.states := by
  rw [canonicalOrder, List.mem_append, List.mem_filter] at h
  rcases h with h | ⟨h, -⟩
  · refine (reachable_of_mem_explore h).induction (fun t ht => ?_) fun t u _ hu => ?_
    · rw [List.mem_singleton.1 ht]
      exact ha.initial_mem
    · obtain ⟨l, hu⟩ := (mem_successors ha).1 hu
      exact (ha.mem_of_mem_targets hu).2
  · exact h

theorem Path.reachable {start : List String} (h : a.Path s w t) (ha : a.SelfContained)
    (hs : Reachable a.successors start s) : Reachable a.successors start t := by
  induction h with
  | refl => exact hs
  | silent hstep _ ih => exact ih (hs.step ((mem_successors ha).2 ⟨_, hstep⟩))
  | read hstep _ ih => exact ih (hs.step ((mem_successors ha).2 ⟨_, hstep⟩))

/-- If all states are reached, the canonical order is the one in which the search for states
comes to its end. -/
theorem Accessible.finishes (haccessible : a.Accessible) (ha : a.SelfContained) :
    Finishes a.successors [] [a.initial] a.canonicalOrder := by
  have hall : a.canonicalOrder = explore a.successors (1 + a.transitionCount) [a.initial] := by
    rw [canonicalOrder]
    refine List.append_right_eq_self.2 (List.filter_eq_nil_iff.2 fun s hs => ?_)
    obtain ⟨w, hpath⟩ := haccessible s hs
    rw [decide_eq_true_eq, not_not]
    exact (mem_explore atMost_reachable_successors).2
      (hpath.reachable ha (.of_mem List.mem_cons_self))
  rw [hall]
  exact finishes_explore atMost_reachable_successors

/-- A deterministic automaton has the same successors in the same order under new names. -/
theorem RenamedBy.successors_eq (h : a.RenamedBy b f) (ha : a.SelfContained)
    (hdet : a.isDeterministic = true) (halphabet : b.alphabet = a.alphabet) (hs : s ∈ a.states) :
    b.successors (f s) = (a.successors s).map f := by
  have hlabels : b.labels = a.labels := by rw [labels, labels, halphabet]
  rw [successors, successors, hlabels, List.map_flatMap]
  refine List.flatMap_congr fun l _ => ?_
  -- A move leads to one state or to none, so there is nothing to be put in order.
  by_cases hsome : ∃ u, u ∈ a.targets s l
  · obtain ⟨u, hu⟩ := hsome
    have honly : ∀ v, v ∈ a.targets s l ↔ v = u :=
      fun v => ⟨(move_of_isDeterministic hdet hu).2 v, fun hv => hv ▸ hu⟩
    have honly' : ∀ v, v ∈ b.targets (f s) l ↔ v = f u := by
      intro v
      rw [h.embeds ha s hs]
      simp only [honly, exists_eq_left]
      exact eq_comm
    rw [OrdSet.toList_eq_singleton honly, OrdSet.toList_eq_singleton honly', List.map_singleton]
  · have hnone : a.targets s l = ∅ := OrdSet.eq_empty_iff.2 fun u hu => hsome ⟨u, hu⟩
    have hnone' : b.targets (f s) l = ∅ := by
      refine OrdSet.eq_empty_iff.2 fun v hv => ?_
      obtain ⟨u, hu, -⟩ := (h.embeds ha s hs l v).1 hv
      exact hsome ⟨u, hu⟩
    rw [hnone, hnone']
    rfl

/-! ## Canonical forms -/

section Canonical

variable (h : a.RenamedBy b f) (ha : a.WellFormed) (hdet : a.isDeterministic = true)
  (haccessible : a.Accessible) (halphabet : b.alphabet = a.alphabet)

include h ha hdet haccessible halphabet

theorem RenamedBy.canonicalOrder_eq : b.canonicalOrder = a.canonicalOrder.map f := by
  have hself := ha.selfContained
  have hstart : ∀ s ∈ [] ++ [a.initial], s ∈ a.states := by simp [ha.initial_mem]
  have hnext : ∀ s, s ∈ a.states →
      b.successors (f s) = (a.successors s).map f ∧ ∀ t ∈ a.successors s, t ∈ a.states := by
    intro s hs
    refine ⟨h.successors_eq hself hdet halphabet hs, fun t ht => ?_⟩
    obtain ⟨l, ht⟩ := (mem_successors hself).1 ht
    exact (ha.mem_of_mem_targets ht).2
  have hfinishes : Finishes b.successors [] [b.initial] (a.canonicalOrder.map f) := by
    rw [h.initial]
    exact (haccessible.finishes hself).map (fun s t hs ht => h.separates s hs t ht) hnext hstart
  exact ((h.accessible hself haccessible).finishes (h.selfContained hself halphabet)).unique
    hfinishes

/-- **The canonical form of a deterministic automaton whose states are all reached does not
depend on the names of its states.** -/
theorem RenamedBy.canonical_eq (hb : b.WellFormed) : b.canonical = a.canonical := by
  have horder := h.canonicalOrder_eq ha hdet haccessible halphabet
  -- A state and its new name stand in the same place of the two orders.
  have hname : ∀ s ∈ a.states, "q" ++ toString (b.canonicalOrder.idxOf (f s)) =
      "q" ++ toString (a.canonicalOrder.idxOf s) := by
    intro s hs
    have hmem : ∀ t ∈ a.canonicalOrder, t ∈ a.states :=
      fun t ht => mem_states_of_mem_canonicalOrder ha.selfContained ht
    rw [horder, List.idxOf_map fun t ht => h.separates t (hmem t ht) s hs]
  have hrenamed := (h.trans (renamedBy_canonical hb) ha.selfContained).congr ha.selfContained hname
  exact hrenamed.eq (renamedBy_canonical ha) (wellFormed_canonical hb) (wellFormed_canonical ha)
    halphabet

end Canonical

end Frontend.Automaton
