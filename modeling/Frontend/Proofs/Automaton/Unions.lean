import Frontend.Automaton.Union
import Frontend.Proofs.Automaton.Building
import Frontend.Proofs.FreshNames

/-!
# Unions accept what one of the two accepts

The new names keep the states of the second automaton apart from each other (`unionName_inj`) and
from those of the first, and no state is called like the new initial state
(`unionName_ne_unionInitial`). So a path of the union that has left its initial state is a path of
one of the two automata, under the new names (`path_initial_union_iff`), and a word is accepted, or
recognised as a token, if one of the two does so (`accepts_union`, `recognizes_union`).
-/

namespace Frontend.Automaton

variable {a b : Automaton} {s t : String} {l : Label} {w : List Char}

/-! ## New names -/

theorem markedName_not_mem (taken : List String) (s : String) :
    (fresh taken fun k => repeated k "af2-" ++ s) ∉ taken :=
  fresh_not_mem (repeated_append_injective s (by decide))

/-- Each new name is the old one, if this is free, or was not taken; none is among `own`. -/
theorem separateNames_spec {own : OrdSet String} {taken ss : List String} {name : String}
    (hown : ∀ x ∈ own, x ∈ taken) (h : (s, name) ∈ separateNames own taken ss) :
    s ∈ ss ∧ ¬ name ∈ own ∧ (name = s ∨ name ∉ taken) := by
  induction ss generalizing taken with
  | nil => cases h
  | cons r ss ih =>
    unfold separateNames at h
    split at h
    · have hfresh := markedName_not_mem taken r
      rcases List.mem_cons.1 h with heq | h
      · obtain ⟨rfl, rfl⟩ := Prod.mk.inj heq
        exact ⟨List.mem_cons_self, fun hx => hfresh (hown _ hx), .inr hfresh⟩
      · obtain ⟨hs, hname, hcases⟩ := ih (fun x hx => .tail _ (hown x hx)) h
        exact ⟨.tail _ hs, hname, hcases.imp_right fun hnot hmem => hnot (.tail _ hmem)⟩
    · next hr =>
      rcases List.mem_cons.1 h with heq | h
      · obtain ⟨rfl, rfl⟩ := Prod.mk.inj heq
        exact ⟨List.mem_cons_self, hr, .inl rfl⟩
      · obtain ⟨hs, hrest⟩ := ih hown h
        exact ⟨.tail _ hs, hrest⟩

theorem map_fst_separateNames (own : OrdSet String) (taken ss : List String) :
    (separateNames own taken ss).map Prod.fst = ss := by
  induction ss generalizing taken with
  | nil => rfl
  | cons r ss ih =>
    unfold separateNames
    split
    · rw [List.map_cons, ih]
    · rw [List.map_cons, ih]

/-- The new names differ. -/
theorem nodup_separateNames {own : OrdSet String} {taken ss : List String}
    (hown : ∀ x ∈ own, x ∈ taken) (hss : ss.Nodup) (htaken : ∀ s ∈ ss, s ∈ taken) :
    ((separateNames own taken ss).map Prod.snd).Nodup := by
  induction ss generalizing taken with
  | nil => exact List.nodup_nil
  | cons r ss ih =>
    obtain ⟨hr, hss⟩ := List.nodup_cons.1 hss
    unfold separateNames
    split
    · have hfresh := markedName_not_mem taken r
      rw [List.map_cons]
      refine List.nodup_cons.2 ⟨fun hmem => ?_, ih (fun x hx => .tail _ (hown x hx)) hss
        fun s hs => .tail _ (htaken s (.tail _ hs))⟩
      obtain ⟨⟨s, name⟩, hentry, rfl⟩ := List.mem_map.1 hmem
      obtain ⟨hs, -, hcases⟩ := separateNames_spec (fun x hx => .tail _ (hown x hx)) hentry
      rcases hcases with rfl | hnot
      · exact hfresh (htaken _ (.tail _ hs))
      · exact hnot List.mem_cons_self
    · rw [List.map_cons]
      refine List.nodup_cons.2 ⟨fun hmem => ?_, ih hown hss fun s hs => htaken s (.tail _ hs)⟩
      obtain ⟨⟨s, name⟩, hentry, rfl⟩ := List.mem_map.1 hmem
      obtain ⟨hs, -, hcases⟩ := separateNames_spec hown hentry
      rcases hcases with rfl | hnot
      · exact hr hs
      · exact hnot (htaken _ List.mem_cons_self)

theorem initialCandidate_injective : Function.Injective initialCandidate := by
  have hmark : ∀ k, initialCandidate (k + 1) ≠ initialCandidate 0 := by
    intro k h
    rw [initialCandidate, initialCandidate] at h
    exact Nat.repr_ne_empty (String.append_right_inj "qi" |>.1 h)
  intro i j h
  cases i with
  | zero =>
    cases j with
    | zero => rfl
    | succ j => exact absurd h.symm (hmark j)
  | succ i =>
    cases j with
    | zero => exact absurd h (hmark i)
    | succ j => exact Nat.repr_injective (String.append_right_inj "qi" |>.1 h)

/-- The new names of the states of the second automaton. -/
def unionNames (a b : Automaton) : List (String × String) :=
  separateNames a.states (a.states.toList ++ b.states.toList) b.states.toList

/-- The new name of a state of the second automaton. -/
def unionName (a b : Automaton) (s : String) : String := (OrdMap.ofList (a.unionNames b)).getD s s

/-- The initial state of a union. -/
def unionInitial (a b : Automaton) : String :=
  fresh ((a.unionNames b).map Prod.snd ++ (a.states.toList ++ b.states.toList)) initialCandidate

theorem map_fst_unionNames : (a.unionNames b).map Prod.fst = b.states.toList :=
  map_fst_separateNames _ _ _

/-- The new names of the states of the second automaton are those in the list. -/
theorem mem_unionNames {name : String} :
    (s, name) ∈ a.unionNames b ↔ s ∈ b.states ∧ name = a.unionName b s := by
  have hnodup : ((a.unionNames b).map Prod.fst).Nodup := map_fst_unionNames ▸ b.states.nodup
  have hname : ∀ name, (s, name) ∈ a.unionNames b → name = a.unionName b s := by
    intro name h
    have hget : (OrdMap.ofList (a.unionNames b)).get? s = some name :=
      OrdMap.get?_ofList_eq h fun _ h' =>
        congrArg Prod.snd (List.inj_on_of_nodup_map hnodup h' h rfl)
    rw [unionName, OrdMap.getD, hget, Option.getD_some]
  rw [OrdSet.mem_def, ← map_fst_unionNames (a := a), List.mem_map]
  constructor
  · exact fun h => ⟨⟨_, h, rfl⟩, hname name h⟩
  · intro h
    obtain ⟨⟨⟨s, name⟩, h, rfl⟩, rfl⟩ := h
    rwa [← hname name h]

theorem unionName_mem_unionNames (hs : s ∈ b.states) :
    (s, a.unionName b s) ∈ a.unionNames b :=
  mem_unionNames.2 ⟨hs, rfl⟩

theorem unionName_not_mem (hs : s ∈ b.states) : ¬ a.unionName b s ∈ a.states :=
  (separateNames_spec (fun _ hx => List.mem_append_left _ hx) (unionName_mem_unionNames hs)).2.1

theorem unionName_inj (hs : s ∈ b.states) (ht : t ∈ b.states)
    (h : a.unionName b s = a.unionName b t) : s = t := by
  have hnodup : ((a.unionNames b).map Prod.snd).Nodup :=
    nodup_separateNames (fun _ hx => List.mem_append_left _ hx) b.states.nodup
      fun _ hs => List.mem_append_right _ hs
  exact congrArg Prod.fst (List.inj_on_of_nodup_map hnodup (unionName_mem_unionNames hs)
    (unionName_mem_unionNames ht) h)

theorem unionInitial_not_mem :
    a.unionInitial b ∉ (a.unionNames b).map Prod.snd ++ (a.states.toList ++ b.states.toList) :=
  fresh_not_mem initialCandidate_injective

theorem unionInitial_not_mem_left : ¬ a.unionInitial b ∈ a.states := fun h =>
  unionInitial_not_mem (List.mem_append_right _ (List.mem_append_left _ h))

theorem unionName_ne_unionInitial (hs : s ∈ b.states) : a.unionName b s ≠ a.unionInitial b :=
  fun h => unionInitial_not_mem
    (List.mem_append_left _ (h ▸ List.mem_map_of_mem (unionName_mem_unionNames hs)))

/-! ## Moves -/

/-- Further moves go in among those that are there. -/
theorem mem_getD_foldl_alter {f : String → String} {all : OrdMap Move (OrdSet String)}
    {entries : List (Move × OrdSet String)} {move : Move} :
    t ∈ (entries.foldl
        (fun all (move, targets) =>
          all.alter ⟨f move.source, move.label⟩ fun old => old.getD ∅ ∪ targets.map f)
        all).getD move ∅ ↔
      t ∈ all.getD move ∅ ∨
        ∃ e ∈ entries, move = ⟨f e.1.source, e.1.label⟩ ∧ ∃ u ∈ e.2, f u = t := by
  induction entries generalizing all with
  | nil => simp
  | cons e entries ih =>
    rw [List.foldl_cons, ih, OrdMap.getD, OrdMap.get?_alter]
    by_cases h : move = ⟨f e.1.source, e.1.label⟩
    · rw [if_pos h, Option.getD_some, OrdSet.mem_union, OrdSet.mem_map, ← OrdMap.getD, ← h,
        or_assoc, List.exists_mem_cons_iff, and_iff_right h]
    · rw [if_neg h, ← OrdMap.getD, List.exists_mem_cons_iff]
      simp [h]

/-- Both automata side by side, with an initial state that leads nowhere yet. -/
def sideBySide (a b : Automaton) : Automaton where
  states := OrdSet.singleton (a.unionInitial b) ∪ a.states ∪ b.states.map (a.unionName b)
  alphabet := a.alphabet ∪ b.alphabet
  initial := a.unionInitial b
  finals := a.finals ∪ b.finals.map (a.unionName b)
  transitions := b.transitions.toList.foldl
    (fun all (move, targets) =>
      all.alter ⟨a.unionName b move.source, move.label⟩ fun old =>
        old.getD ∅ ∪ targets.map (a.unionName b))
    a.transitions
  tokens := b.tokens.toList.foldl
    (fun all (s, token) => all.insert (a.unionName b s) token) a.tokens

theorem union_eq :
    a.union b =
      ((a.sideBySide b).addTransition (a.unionInitial b) .epsilon a.initial).addTransition
        (a.unionInitial b) .epsilon (a.unionName b b.initial) := rfl

/-- The moves of a union: those of the first automaton, those of the second under the new
names, and two from the initial state. -/
theorem mem_targets_union :
    t ∈ (a.union b).targets s l ↔
      (t ∈ a.targets s l ∨ ∃ r u, u ∈ b.targets r l ∧ a.unionName b r = s ∧ a.unionName b u = t) ∨
        s = a.unionInitial b ∧ l = .epsilon ∧ (t = a.initial ∨ t = a.unionName b b.initial) := by
  -- First without the two moves from the new initial state.
  have hboth : t ∈ (a.sideBySide b).targets s l ↔ t ∈ a.targets s l ∨
      ∃ r u, u ∈ b.targets r l ∧ a.unionName b r = s ∧ a.unionName b u = t := by
    rw [targets, sideBySide, mem_getD_foldl_alter]
    refine or_congr_right ?_
    constructor
    · intro h
      obtain ⟨⟨⟨r, label⟩, us⟩, hmem, heq, u, hu, rfl⟩ := h
      obtain ⟨rfl, rfl⟩ := Move.mk.inj heq
      exact ⟨r, u, mem_targets_iff.2 ⟨us, OrdMap.mem_toList_iff.1 hmem, hu⟩, rfl, rfl⟩
    · intro h
      obtain ⟨r, u, hu, rfl, rfl⟩ := h
      obtain ⟨us, hus, hu⟩ := mem_targets_iff.1 hu
      exact ⟨_, OrdMap.mem_toList_iff.2 hus, rfl, u, hu, rfl⟩
  rw [union_eq, mem_targets_addTransition, mem_targets_addTransition, hboth, or_assoc,
    ← and_or_left, ← and_or_left]

/-! ## Paths -/

variable {token : String}

/-- From a state of the first automaton a union moves as this automaton does. -/
theorem embeds_union_left (hb : b.WellFormed) : a.Embeds (a.union b) id := by
  intro s hs l t
  rw [id, mem_targets_union]
  constructor
  · intro h
    rcases h with (h | ⟨r, u, hu, rfl, -⟩) | ⟨rfl, -⟩
    · exact ⟨t, h, rfl⟩
    · exact absurd hs (unionName_not_mem (hb.mem_of_mem_targets hu).1)
    · exact absurd hs unionInitial_not_mem_left
  · intro h
    obtain ⟨u, hu, rfl⟩ := h
    exact .inl (.inl hu)

/-- From a state of the second automaton a union moves as this automaton does, under the new
names. -/
theorem embeds_union_right (ha : a.WellFormed) (hb : b.WellFormed) :
    b.Embeds (a.union b) (a.unionName b) := by
  intro s hs l t
  rw [mem_targets_union]
  constructor
  · intro h
    rcases h with (h | ⟨r, u, hu, hr, rfl⟩) | ⟨h, -⟩
    · exact absurd (ha.mem_of_mem_targets h).1 (unionName_not_mem hs)
    · obtain rfl := unionName_inj (hb.mem_of_mem_targets hu).1 hs hr
      exact ⟨u, hu, rfl⟩
    · exact absurd h (unionName_ne_unionInitial hs)
  · intro h
    obtain ⟨u, hu, rfl⟩ := h
    exact .inl (.inr ⟨s, u, hu, rfl, rfl⟩)

/-- From the initial state a union moves to both automata without reading. -/
theorem mem_targets_union_initial (ha : a.WellFormed) (hb : b.WellFormed) :
    t ∈ (a.union b).targets (a.unionInitial b) l ↔
      l = .epsilon ∧ (t = a.initial ∨ t = a.unionName b b.initial) := by
  rw [mem_targets_union]
  constructor
  · intro h
    rcases h with (h | ⟨r, u, hu, hr, rfl⟩) | ⟨-, h⟩
    · exact absurd (ha.mem_of_mem_targets h).1 unionInitial_not_mem_left
    · exact absurd hr (unionName_ne_unionInitial (hb.mem_of_mem_targets hu).1)
    · exact h
  · exact fun h => .inr ⟨rfl, h⟩

/-- **A path of a union is one of the first automaton or one of the second**, once it has
left the initial state. -/
theorem path_initial_union_iff (ha : a.WellFormed) (hb : b.WellFormed) :
    (a.union b).Path (a.unionInitial b) w t ↔
      (w = [] ∧ t = a.unionInitial b) ∨ a.Path a.initial w t ∨
        ∃ u, b.Path b.initial w u ∧ a.unionName b u = t := by
  constructor
  · intro h
    -- The first move enters one of the two automata, and the path stays in it.
    cases h with
    | refl => exact .inl ⟨rfl, rfl⟩
    | silent hstep rest =>
      obtain ⟨-, rfl | rfl⟩ := (mem_targets_union_initial ha hb).1 hstep
      · obtain ⟨u, hpath, rfl⟩ :=
          ((embeds_union_left hb).path_iff ha.selfContained ha.initial_mem).1 rest
        exact .inr (.inl hpath)
      · exact .inr (.inr
          (((embeds_union_right ha hb).path_iff hb.selfContained hb.initial_mem).1 rest))
    | read hstep =>
      obtain ⟨hlabel, -⟩ := (mem_targets_union_initial ha hb).1 hstep
      cases hlabel
  · intro h
    rcases h with ⟨rfl, rfl⟩ | h | h
    · exact .refl _
    · exact .silent ((mem_targets_union_initial ha hb).2 ⟨rfl, .inl rfl⟩)
        (((embeds_union_left hb).path_iff ha.selfContained ha.initial_mem).2 ⟨t, h, rfl⟩)
    · exact .silent ((mem_targets_union_initial ha hb).2 ⟨rfl, .inr rfl⟩)
        (((embeds_union_right ha hb).path_iff hb.selfContained hb.initial_mem).2 h)

/-! ## Final states and tokens -/

/-- The final states that a word leads to are those of the first automaton, and those of the
second under their new names. -/
theorem final_union_iff (ha : a.WellFormed) (hb : b.WellFormed) :
    t ∈ (a.union b).finals ∧ (a.union b).Path (a.union b).initial w t ↔
      (t ∈ a.finals ∧ a.Path a.initial w t) ∨
        ∃ u, (u ∈ b.finals ∧ b.Path b.initial w u) ∧ a.unionName b u = t := by
  have hfinal : t ∈ (a.union b).finals ↔
      t ∈ a.finals ∨ ∃ u, u ∈ b.finals ∧ a.unionName b u = t := by
    rw [union_eq, addTransition, addTransition, sideBySide]
    exact OrdSet.mem_union.trans (or_congr_right OrdSet.mem_map)
  have hinitial : (a.union b).initial = a.unionInitial b := rfl
  rw [hfinal, hinitial, path_initial_union_iff ha hb]
  constructor
  · intro h
    -- A state that belongs to one automaton is not reached by a path of the other.
    rcases h with ⟨ht | ⟨u, hu, rfl⟩, ⟨rfl, hpath⟩ | hpath | ⟨v, hpath, hv⟩⟩
    · exact absurd (hpath ▸ ha.finals_subset t ht) unionInitial_not_mem_left
    · exact .inl ⟨ht, hpath⟩
    · subst hv
      exact absurd (ha.finals_subset _ ht)
        (unionName_not_mem (hb.mem_of_path hb.initial_mem hpath))
    · exact absurd hpath (unionName_ne_unionInitial (hb.finals_subset u hu))
    · exact absurd (ha.mem_of_path ha.initial_mem hpath)
        (unionName_not_mem (hb.finals_subset u hu))
    · obtain rfl := unionName_inj (hb.mem_of_path hb.initial_mem hpath) (hb.finals_subset u hu) hv
      exact .inr ⟨v, ⟨hu, hpath⟩, rfl⟩
  · intro h
    rcases h with ⟨ht, hpath⟩ | ⟨u, ⟨hu, hpath⟩, rfl⟩
    · exact ⟨.inl ht, .inr (.inl hpath)⟩
    · exact ⟨.inr ⟨u, hu, rfl⟩, .inr (.inr ⟨u, hpath, rfl⟩)⟩

/-- **A union accepts what one of the two accepts.** -/
theorem accepts_union (ha : a.WellFormed) (hb : b.WellFormed) {word : String} :
    (a.union b).accepts word = true ↔ a.accepts word = true ∨ b.accepts word = true := by
  rw [accepts_iff, accepts_iff, accepts_iff]
  constructor
  · intro h
    obtain ⟨t, ht⟩ := h
    rcases (final_union_iff ha hb).1 ht with ht | ⟨u, hu, -⟩
    · exact .inl ⟨t, ht⟩
    · exact .inr ⟨u, hu⟩
  · intro h
    rcases h with ⟨t, ht⟩ | ⟨u, hu⟩
    · exact ⟨t, (final_union_iff ha hb).2 (.inl ht)⟩
    · exact ⟨_, (final_union_iff ha hb).2 (.inr ⟨u, hu, rfl⟩)⟩

theorem tokens_union :
    (a.union b).tokens = (b.tokens.toList.map fun e => (a.unionName b e.1, e.2)).foldl
      (fun all e => all.insert e.1 e.2) a.tokens := by
  rw [List.foldl_map]
  rfl

theorem get?_tokens_union_left (hb : b.WellFormed) (hs : s ∈ a.states) :
    (a.union b).tokens.get? s = a.tokens.get? s := by
  rw [tokens_union]
  refine OrdMap.get?_foldl_insert_of_not_mem fun token h => ?_
  obtain ⟨⟨u, token'⟩, hmem, heq⟩ := List.mem_map.1 h
  obtain ⟨rfl, -⟩ := Prod.mk.inj heq
  have hu := hb.token_final _ _ (OrdMap.mem_toList_iff.1 hmem)
  exact unionName_not_mem (hb.finals_subset u hu) hs

theorem get?_tokens_union_right (ha : a.WellFormed) (hb : b.WellFormed) (hs : s ∈ b.states) :
    (a.union b).tokens.get? (a.unionName b s) = b.tokens.get? s := by
  have hentry : ∀ token, (a.unionName b s, token) ∈
      (b.tokens.toList.map fun e => (a.unionName b e.1, e.2)) ↔ b.tokens.get? s = some token := by
    intro token
    rw [List.mem_map]
    constructor
    · intro h
      obtain ⟨⟨u, token'⟩, hmem, heq⟩ := h
      obtain ⟨hname, rfl⟩ := Prod.mk.inj heq
      have hget := OrdMap.mem_toList_iff.1 hmem
      obtain rfl := unionName_inj (hb.finals_subset u (hb.token_final _ _ hget)) hs hname
      exact hget
    · exact fun h => ⟨_, OrdMap.mem_toList_iff.2 h, rfl⟩
  -- The new name is not one of the first automaton, so nothing is overwritten.
  have hnew : a.tokens.get? (a.unionName b s) = none := by
    cases h : a.tokens.get? (a.unionName b s) with
    | none => rfl
    | some token =>
      exact absurd (ha.finals_subset _ (ha.token_final _ _ h)) (unionName_not_mem hs)
  rw [tokens_union]
  cases h : b.tokens.get? s with
  | none =>
    rw [OrdMap.get?_foldl_insert_of_not_mem, hnew]
    intro token hmem
    cases h.symm.trans ((hentry token).1 hmem)
  | some token =>
    refine OrdMap.get?_foldl_insert_eq hnew ((hentry token).2 h) fun token' hmem => ?_
    exact (Option.some.inj (h.symm.trans ((hentry token').1 hmem))).symm

/-- **A union recognises a word as what one of the two recognises it as.** -/
theorem recognizes_union (ha : a.WellFormed) (hb : b.WellFormed) :
    (a.union b).Recognizes w token ↔ a.Recognizes w token ∨ b.Recognizes w token := by
  constructor
  · intro h
    obtain ⟨t, ht, hpath, htoken⟩ := h
    rcases (final_union_iff ha hb).1 ⟨ht, hpath⟩ with ⟨ht, hpath⟩ | ⟨u, ⟨hu, hup⟩, rfl⟩
    · rw [get?_tokens_union_left hb (ha.finals_subset t ht)] at htoken
      exact .inl ⟨t, ht, hpath, htoken⟩
    · rw [get?_tokens_union_right ha hb (hb.finals_subset u hu)] at htoken
      exact .inr ⟨u, hu, hup, htoken⟩
  · intro h
    rcases h with ⟨t, ht, hpath, htoken⟩ | ⟨u, hu, hpath, htoken⟩
    · obtain ⟨ht', hpath'⟩ := (final_union_iff ha hb).2 (.inl ⟨ht, hpath⟩)
      refine ⟨t, ht', hpath', ?_⟩
      rw [get?_tokens_union_left hb (ha.finals_subset t ht), htoken]
    · obtain ⟨hu', hpath'⟩ := (final_union_iff ha hb).2 (.inr ⟨u, ⟨hu, hpath⟩, rfl⟩)
      refine ⟨_, hu', hpath', ?_⟩
      rw [get?_tokens_union_right ha hb (hb.finals_subset u hu), htoken]

/-! ## The union as a whole -/

theorem mem_states_union (ha : a.WellFormed) (hb : b.WellFormed) :
    t ∈ (a.union b).states ↔
      t = a.unionInitial b ∨ t ∈ a.states ∨ ∃ u, u ∈ b.states ∧ a.unionName b u = t := by
  rw [union_eq, addTransition, addTransition, sideBySide]
  simp only [OrdSet.mem_insert, OrdSet.mem_union, OrdSet.mem_singleton, OrdSet.mem_map]
  constructor
  · intro h
    rcases h with rfl | rfl | rfl | rfl | (rfl | h) | h
    · exact .inr (.inr ⟨_, hb.initial_mem, rfl⟩)
    · exact .inl rfl
    · exact .inr (.inl ha.initial_mem)
    · exact .inl rfl
    · exact .inl rfl
    · exact .inr (.inl h)
    · exact .inr (.inr h)
  · intro h
    rcases h with rfl | h | h
    · exact .inr (.inl rfl)
    · exact .inr (.inr (.inr (.inr (.inl (.inr h)))))
    · exact .inr (.inr (.inr (.inr (.inr h))))

/-- Every entry of a table of moves has a target. -/
def Inhabited (all : OrdMap Move (OrdSet String)) : Prop :=
  ∀ move ts, all.get? move = some ts → ∃ t, t ∈ ts

/-- What is self-contained is well-formed if every move leads somewhere and tokens belong to final
states. -/
theorem SelfContained.toWellFormed (ha : a.SelfContained) (hmoves : Inhabited a.transitions)
    (htokens : ∀ s t, a.tokens.get? s = some t → s ∈ a.finals) : a.WellFormed where
  initial_mem := ha.initial_mem
  finals_subset := ha.finals_subset
  source_mem := by
    intro move ts hts
    obtain ⟨t, ht⟩ := hmoves move ts hts
    exact (ha.mem_of_mem_targets (mem_targets_iff.2 ⟨ts, hts, ht⟩)).1
  target_mem := fun move ts hts t ht =>
    (ha.mem_of_mem_targets (l := move.label) (mem_targets_iff.2 ⟨ts, hts, ht⟩)).2
  target_exists := hmoves
  symbol_mem := by
    intro s c ts hts
    obtain ⟨t, ht⟩ := hmoves _ ts hts
    exact ha.mem_alphabet (mem_targets_iff.2 ⟨ts, hts, ht⟩)
  token_final := htokens

theorem inhabited_alter {all : OrdMap Move (OrdSet String)} {move : Move}
    {f : Option (OrdSet String) → OrdSet String} (h : Inhabited all) (hf : ∀ old, ∃ t, t ∈ f old) :
    Inhabited (all.alter move f) := by
  intro move' ts hts
  rw [OrdMap.get?_alter] at hts
  split at hts
  · rw [← Option.some.inj hts]
    exact hf _
  · exact h _ _ hts

theorem inhabited_union (ha : a.WellFormed) (hb : b.WellFormed) :
    Inhabited (a.union b).transitions := by
  have hboth : Inhabited (a.sideBySide b).transitions := by
    have hentries : ∀ e ∈ b.transitions.toList, ∃ t, t ∈ e.2 :=
      fun e he => hb.target_exists _ _ (OrdMap.mem_toList_iff.1 he)
    have hstart : Inhabited a.transitions := ha.target_exists
    unfold sideBySide
    -- The induction is over the entries put in, on any table that they are put into.
    generalize a.transitions = all at hstart ⊢
    generalize b.transitions.toList = entries at hentries ⊢
    induction entries generalizing all with
    | nil => exact hstart
    | cons e entries ih =>
      rw [List.foldl_cons]
      refine ih _ (inhabited_alter hstart fun old => ?_)
        fun e he => hentries e (.tail _ he)
      obtain ⟨t, ht⟩ := hentries e List.mem_cons_self
      exact ⟨_, OrdSet.mem_union.2 (.inr (OrdSet.mem_map.2 ⟨t, ht, rfl⟩))⟩
  have hinsert : ∀ (old : Option (OrdSet String)) (t : String), ∃ u, u ∈ (old.getD ∅).insert t :=
    fun old t => ⟨t, OrdSet.mem_insert.2 (.inl rfl)⟩
  rw [union_eq]
  exact inhabited_alter (inhabited_alter hboth fun old => hinsert old _) fun old => hinsert old _

theorem mem_alphabet_union {c : Char} :
    c ∈ (a.union b).alphabet ↔ c ∈ a.alphabet ∨ c ∈ b.alphabet := by
  rw [union, mem_alphabet_addTransition, mem_alphabet_addTransition, or_iff_left nofun,
    or_iff_left nofun]
  exact OrdSet.mem_union

theorem selfContained_union (ha : a.WellFormed) (hb : b.WellFormed) :
    (a.union b).SelfContained where
  initial_mem := (mem_states_union ha hb).2 (.inl rfl)
  finals_subset := by
    intro s hs
    rw [mem_states_union ha hb]
    rcases OrdSet.mem_union.1 hs with hs | hs
    · exact .inr (.inl (ha.finals_subset s hs))
    · obtain ⟨u, hu, rfl⟩ := OrdSet.mem_map.1 hs
      exact .inr (.inr ⟨u, hb.finals_subset u hu, rfl⟩)
  mem_of_mem_targets := by
    intro s l t h
    rw [mem_states_union ha hb, mem_states_union ha hb]
    rcases mem_targets_union.1 h with (h | ⟨r, u, hu, rfl, rfl⟩) | ⟨rfl, -, rfl | rfl⟩
    · obtain ⟨hs, ht⟩ := ha.mem_of_mem_targets h
      exact ⟨.inr (.inl hs), .inr (.inl ht)⟩
    · obtain ⟨hr, hu⟩ := hb.mem_of_mem_targets hu
      exact ⟨.inr (.inr ⟨r, hr, rfl⟩), .inr (.inr ⟨u, hu, rfl⟩)⟩
    · exact ⟨.inl rfl, .inr (.inl ha.initial_mem)⟩
    · exact ⟨.inl rfl, .inr (.inr ⟨_, hb.initial_mem, rfl⟩)⟩
  mem_alphabet := by
    intro s c t h
    rw [mem_alphabet_union]
    rcases mem_targets_union.1 h with (h | ⟨r, u, hu, rfl, rfl⟩) | ⟨-, hlabel, -⟩
    · exact .inl (ha.mem_alphabet h)
    · exact .inr (hb.mem_alphabet hu)
    · cases hlabel

/-- The parts of a union fit together. -/
theorem wellFormed_union (ha : a.WellFormed) (hb : b.WellFormed) : (a.union b).WellFormed := by
  refine (selfContained_union ha hb).toWellFormed (inhabited_union ha hb) fun s t h => ?_
  rw [tokens_union] at h
  rcases OrdMap.get?_foldl_insert h with h | h
  · obtain ⟨⟨u, token'⟩, hmem, heq⟩ := List.mem_map.1 h
    obtain ⟨rfl, -⟩ := Prod.mk.inj heq
    have hu := hb.token_final _ _ (OrdMap.mem_toList_iff.1 hmem)
    exact OrdSet.mem_union.2 (.inr (OrdSet.mem_map.2 ⟨u, hu, rfl⟩))
  · exact OrdSet.mem_union.2 (.inl (ha.token_final _ _ h))

/-! ## Unions of lists -/

/-- The union of a list knows what one of its members knows. -/
theorem mem_alphabet_foldl_union {rest : List Automaton} {c : Char} :
    c ∈ (rest.foldl union a).alphabet ↔ ∃ b ∈ a :: rest, c ∈ b.alphabet := by
  induction rest generalizing a with
  | nil => simp
  | cons b rest ih =>
    rw [List.foldl_cons, ih]
    simp only [List.exists_mem_cons_iff, mem_alphabet_union, or_assoc]

theorem mem_alphabet_unionAll {as : List Automaton} {all : Automaton} {c : Char}
    (h : unionAll? as = some all) : c ∈ all.alphabet ↔ ∃ a ∈ as, c ∈ a.alphabet := by
  cases as with
  | nil => cases h
  | cons a rest =>
    obtain rfl := Option.some.inj h
    exact mem_alphabet_foldl_union

/-- **The union of a list does what one of its members does.** -/
theorem foldl_union {rest : List Automaton} (ha : a.WellFormed)
    (hrest : ∀ b ∈ rest, b.WellFormed) :
    (rest.foldl union a).WellFormed ∧
      (∀ word, (rest.foldl union a).accepts word = true ↔ ∃ b ∈ a :: rest, b.accepts word = true) ∧
        ∀ w token, (rest.foldl union a).Recognizes w token ↔
          ∃ b ∈ a :: rest, b.Recognizes w token := by
  induction rest generalizing a with
  | nil => exact ⟨ha, by simp, by simp⟩
  | cons b rest ih =>
    have hb := hrest b List.mem_cons_self
    obtain ⟨hwf, haccepts, hrecognizes⟩ :=
      ih (wellFormed_union ha hb) fun c hc => hrest c (.tail _ hc)
    rw [List.foldl_cons]
    refine ⟨hwf, fun word => ?_, fun w token => ?_⟩
    · rw [haccepts]
      simp only [List.exists_mem_cons_iff, accepts_union ha hb, or_assoc]
    · rw [hrecognizes]
      simp only [List.exists_mem_cons_iff, recognizes_union ha hb, or_assoc]

theorem wellFormed_unionAll {as : List Automaton} {all : Automaton} (has : ∀ a ∈ as, a.WellFormed)
    (h : unionAll? as = some all) : all.WellFormed := by
  cases as with
  | nil => cases h
  | cons a rest =>
    obtain rfl := Option.some.inj h
    exact (foldl_union (has a List.mem_cons_self) fun b hb => has b (.tail _ hb)).1

end Frontend.Automaton
