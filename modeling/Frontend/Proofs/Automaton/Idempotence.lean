import Frontend.Proofs.Automaton.Correspondence

/-!
# The subset construction changes nothing a second time

In a deterministic automaton a word reaches one state or none, so the sets of the subset
construction have one member each (`exists_singleton_of_mem_reachableSets`). Such a set is named
after its member, since a mark is put behind a name only if an earlier set has it
(`nameOf_singleton`). So the same words lead to the same states as before
(`path_determinize_iff_path`), and a state keeps its token, whatever the order of priority is,
since no other token competes with it (`get?_tokens_determinize`).

If in addition every state is reached, the subset construction therefore gives the automaton back
(`determinize_eq_self`). What it gives for any automaton is of this kind, so a second one changes
nothing (`determinize_determinize`).
-/

namespace Frontend.Automaton

variable {a : Automaton} {s : String} {w : List Char} {priority : List String}

/-! ## Sets with one member -/

/-- A set that a word leads to is what this word reaches. -/
theorem exists_reached_of_mem_reachableSets (ha : a.SelfContained) {states : OrdSet String}
    (h : states ∈ a.reachableSets) : ∃ w, states = a.reached w ∧ ∃ s, s ∈ states := by
  refine ((mem_reachableSets ha).1 h).induction
    (p := fun states => ∃ w, states = a.reached w ∧ ∃ s, s ∈ states) (fun states hstates => ?_) ?_
  · rw [List.mem_singleton.1 hstates]
    exact ⟨[], rfl, _, mem_startSet_initial⟩
  · intro states next hstates hnext
    obtain ⟨w, rfl, -⟩ := hstates
    obtain ⟨hmem, hsome⟩ := List.mem_filter.1 hnext
    obtain ⟨c, -, rfl⟩ := List.mem_map.1 hmem
    rw [Bool.not_eq_true', OrdSet.isEmpty_eq_false_iff] at hsome
    exact ⟨w ++ [c], (List.foldl_concat ..).symm, hsome⟩

section Deterministic

variable (hdet : a.isDeterministic = true)

include hdet

theorem reached_eq_singleton (h : a.Path a.initial w s) : a.reached w = OrdSet.singleton s := by
  ext t
  rw [mem_reached, OrdSet.mem_singleton]
  constructor
  · exact fun ht => ht.unique hdet h
  · rintro rfl
    exact h

/-- The sets that words lead to in a deterministic automaton have one member each. -/
theorem exists_singleton_of_mem_reachableSets (ha : a.SelfContained) {states : OrdSet String}
    (h : states ∈ a.reachableSets) : ∃ s, states = OrdSet.singleton s := by
  obtain ⟨w, rfl, s, hs⟩ := exists_reached_of_mem_reachableSets ha h
  exact ⟨s, reached_eq_singleton hdet (mem_reached.1 hs)⟩

end Deterministic

/-! ## Their names -/

theorem setName_singleton (s : String) : setName (OrdSet.singleton s) 0 = s := by
  show String.intercalate "_" [s] ++ repeated 0 "'" = s
  rw [String.intercalate_singleton]
  exact String.append_empty

/-- Among sets with one member each, a set stands beside its member, unless that name was in use
before. -/
theorem mem_nameSets_singleton {used : List String} {sets : List (OrdSet String)}
    (hsingle : ∀ states ∈ sets, ∃ s, states = OrdSet.singleton s) (hnodup : sets.Nodup)
    (hused : ∀ s, OrdSet.singleton s ∈ sets → s ∉ used) (hs : OrdSet.singleton s ∈ sets) :
    (OrdSet.singleton s, s) ∈ nameSets used sets := by
  induction sets generalizing used with
  | nil => cases hs
  | cons states sets ih =>
    obtain ⟨t, rfl⟩ := hsingle states List.mem_cons_self
    obtain ⟨hnew, hnodup⟩ := List.nodup_cons.1 hnodup
    have hname : fresh used (setName (OrdSet.singleton t)) = t := by
      rw [fresh_eq_of_not_mem, setName_singleton]
      rw [setName_singleton]
      exact hused t List.mem_cons_self
    rw [nameSets, hname]
    rcases List.mem_cons.1 hs with heq | hs
    · rw [heq]
      obtain rfl : s = t := OrdSet.mem_singleton.1 (heq ▸ OrdSet.mem_singleton.2 rfl)
      exact List.mem_cons_self
    · refine .tail _ (ih (fun states h => hsingle states (.tail _ h)) hnodup (fun r hr => ?_) hs)
      -- The name that is in use from now on belongs to a set that does not come again.
      rw [List.mem_cons, not_or]
      refine ⟨fun heq => hnew (heq ▸ hr), hused r (.tail _ hr)⟩

/-- Among sets with one member each, a set is named after its member. -/
theorem nameOf_singleton {sets : List (OrdSet String)}
    (hsingle : ∀ states ∈ sets, ∃ s, states = OrdSet.singleton s) (hnodup : sets.Nodup)
    (hs : OrdSet.singleton s ∈ sets) : nameOf (nameSets [] sets) (OrdSet.singleton s) = s := by
  refine nameOf_eq ?_ (mem_nameSets_singleton hsingle hnodup (fun _ _ => List.not_mem_nil) hs)
  rw [map_fst_nameSets]
  exact hnodup

/-! ## What they recognise -/

theorem isFinal_singleton :
    (a.subsetSystem priority).isFinal (OrdSet.singleton s) = true ↔ s ∈ a.finals := by
  show (!(List.filter (fun s => decide (s ∈ a.finals)) [s]).isEmpty) = true ↔ _
  by_cases hs : s ∈ a.finals
  · simp [hs]
  · simp [hs]

/-- No other token competes with that of the only state. -/
theorem tokenOfSet_singleton (hs : s ∈ a.finals) :
    a.tokenOfSet priority (OrdSet.singleton s) = a.tokens.get? s := by
  show preferredToken priority
    ((List.filter (fun s => decide (s ∈ a.finals)) [s]).filterMap a.tokens.get?) = _
  have hfinals : List.filter (fun s => decide (s ∈ a.finals)) [s] = [s] :=
    List.filter_cons_of_pos (decide_eq_true hs)
  rw [hfinals]
  cases htoken : a.tokens.get? s with
  | none => rw [List.filterMap_cons_none htoken]; rfl
  | some t => rw [List.filterMap_cons_some htoken]; rfl

/-! ## Deterministic automata -/

section Deterministic

variable (ha : a.SelfContained) (hdet : a.isDeterministic = true)

include ha hdet

/-- The set of a state that is reached has a state, under the name of its member. -/
theorem singleton_mem_sets (priority : List String) (h : a.Path a.initial w s) :
    OrdSet.singleton s ∈ (a.subsetSystem priority).sets ∧
      (a.subsetSystem priority).name (OrdSet.singleton s) = s := by
  have hreached := reached_eq_singleton hdet h
  have hmem : OrdSet.singleton s ∈ a.reachableSets := by
    have hafter : a.reached w ∈ (a.subsetSystem priority).sets :=
      SetSystem.after_mem_sets (proper_subsetSystem ha) ⟨s, mem_reached.2 h⟩
    rwa [hreached] at hafter
  refine ⟨hmem, nameOf_singleton (fun states hstates => ?_) nodup_reachableSets hmem⟩
  exact exists_singleton_of_mem_reachableSets hdet ha hstates

/-- **The same words lead to the same states** after the subset construction. -/
theorem path_determinize_iff_path :
    (a.determinize priority).Path (a.determinize priority).initial w s ↔
      a.Path a.initial w s := by
  rw [path_determinize_iff ha]
  constructor
  · intro h
    obtain ⟨⟨t, ht⟩, rfl⟩ := h
    rw [mem_reached] at ht
    rwa [reached_eq_singleton hdet ht, (singleton_mem_sets ha hdet priority ht).2]
  · intro h
    refine ⟨⟨s, mem_reached.2 h⟩, ?_⟩
    rw [reached_eq_singleton hdet h, (singleton_mem_sets ha hdet priority h).2]

/-- A state that is reached is final as before. -/
theorem mem_finals_determinize_iff (h : a.Path a.initial w s) :
    s ∈ (a.determinize priority).finals ↔ s ∈ a.finals := by
  obtain ⟨hmem, hname⟩ := singleton_mem_sets ha hdet priority h
  have hfinals := SetSystem.mem_finals_iff (proper_subsetSystem ha) hmem
  rw [hname, ← determinize_eq] at hfinals
  rw [hfinals, isFinal_singleton]

/-- **A state that is reached keeps its token**, whatever the order of priority is. -/
theorem get?_tokens_determinize (h : a.Path a.initial w s) :
    (a.determinize priority).tokens.get? s =
      if s ∈ a.finals then a.tokens.get? s else none := by
  obtain ⟨hmem, hname⟩ := singleton_mem_sets ha hdet priority h
  have htokens := SetSystem.get?_tokens (proper_subsetSystem ha) hmem
  rw [hname, ← determinize_eq] at htokens
  rw [htokens]
  by_cases hs : s ∈ a.finals
  · rw [if_pos hs, if_pos (isFinal_singleton.2 hs)]
    exact tokenOfSet_singleton hs
  · rw [if_neg hs, if_neg fun hfinal => hs (isFinal_singleton.1 hfinal)]

end Deterministic

/-! ## The construction twice -/

/-- Words do not tell a deterministic automaton from its subset construction. -/
theorem corresponds_determinize (ha : a.WellFormed) (hdet : a.isDeterministic = true)
    (priority : List String) : a.Corresponds (a.determinize priority) := by
  have hself := ha.selfContained
  have hpath : ∀ {w s}, (a.determinize priority).Path (a.determinize priority).initial w s ↔
      a.Path a.initial w s := path_determinize_iff_path hself hdet
  -- What meets is the same state, so everything is asked of one state that is reached.
  have hmeets : ∀ {s t}, a.Meets (a.determinize priority) s t →
      s = t ∧ ∃ w, a.Path a.initial w s := by
    intro s t h
    obtain ⟨w, hs, ht⟩ := h
    exact ⟨hs.unique hdet (hpath.1 ht), w, hs⟩
  exact {
    leads_iff := exists_congr fun s => hpath.symm
    eq_iff := by
      intro s s' t t' h h'
      rw [(hmeets h).1, (hmeets h').1]
    final_iff := by
      intro s t h
      obtain ⟨rfl, w, hs⟩ := hmeets h
      exact (mem_finals_determinize_iff hself hdet hs).symm
    tokens_eq := by
      intro s t h
      obtain ⟨rfl, w, hs⟩ := hmeets h
      rw [get?_tokens_determinize hself hdet hs]
      split
      · rfl
      · next hfinal =>
        rw [Option.eq_none_iff_forall_ne_some]
        exact fun token htoken => hfinal (ha.token_final s token htoken) }

/-- **The subset construction gives a deterministic automaton back** if all its states are
reached. -/
theorem determinize_eq_self (ha : a.WellFormed) (hdet : a.isDeterministic = true)
    (haccess : a.Accessible) (priority : List String) : a.determinize priority = a := by
  have hself := ha.selfContained
  have hwell : (a.determinize priority).WellFormed := wellFormed_determinize hself
  obtain ⟨f, hf⟩ := (corresponds_determinize ha hdet priority).exists_renamedBy ha hwell hdet
    (isDeterministic_determinize hself) haccess (accessible_determinize hself priority)
  -- A word that leads to a state leads to it still, so the state has kept its name.
  have hname : ∀ s ∈ a.states, f s = id s := by
    intro s hs
    obtain ⟨w, hw⟩ := haccess s hs
    have hpath := (hf.path_iff hself).2 ⟨s, hw, rfl⟩
    exact ((path_determinize_iff_path hself hdet).1 hpath).unique hdet hw
  exact (hf.congr hself hname).eq (.refl ha) hwell ha rfl

/-- **A second subset construction changes nothing**, whatever the two orders of priority are: it
gives the same automaton, with the same names. -/
theorem determinize_determinize (ha : a.SelfContained) (priority priority' : List String) :
    (a.determinize priority).determinize priority' = a.determinize priority :=
  determinize_eq_self (wellFormed_determinize ha) (isDeterministic_determinize ha)
    (accessible_determinize ha priority) priority'

/-- One of the names ends in a mark, since the members of two sets spell it, and the second order
of priority prefers another token. -/
theorem determinize_determinize_clashing :
    clashing.SelfContained ∧ "x_y'" ∈ (clashing.determinize ["HIGH"]).states ∧
      (clashing.determinize ["HIGH"]).determinize ["LOW"] = clashing.determinize ["HIGH"] ∧
      clashing.determinize ["LOW"] ≠ clashing.determinize ["HIGH"] := by
  have hself : clashing.SelfContained := selfContained_build _ _ _
  refine ⟨hself, by decide +kernel, determinize_determinize hself _ _, by decide +kernel⟩

end Frontend.Automaton
