import Frontend.Automaton.Canonical
import Frontend.Proofs.Automaton.Paths
import Frontend.Proofs.Ordered
import Std.Data.String.ToNat

/-!
# Renaming keeps the verdicts

`Automaton.RenamedBy` says that one automaton is another with its states under new names that
tell them apart. Paths are then carried over and back, so both accept the same words, and if
the automaton is deterministic every verdict is the same, with its token (`RenamedBy.run_eq`).
A renaming gives such an automaton (`renamedBy_rename`); the canonical names differ, since
they count the states.
-/

namespace Frontend.Automaton

variable {a b : Automaton} {f : String → String} {s t : String} {w : List Char}

/-- A renaming tells the states of an automaton apart. -/
def Separates (a : Automaton) (f : String → String) : Prop :=
  ∀ s ∈ a.states, ∀ t ∈ a.states, f s = f t → s = t

/-- `b` has the states of `a` under the names that `f` gives them, and with them the same
moves, the same final states and the same tokens of these. -/
structure RenamedBy (a b : Automaton) (f : String → String) : Prop where
  separates : a.Separates f
  states : b.states = a.states.map f
  initial : b.initial = f a.initial
  finals : b.finals = a.finals.map f
  mem_targets : ∀ {s l t}, t ∈ b.targets s l ↔ ∃ r u, u ∈ a.targets r l ∧ f r = s ∧ f u = t
  tokens : ∀ {s token}, b.tokens.get? s = some token ↔
    ∃ r, r ∈ a.finals ∧ a.tokens.get? r = some token ∧ f r = s

/-- Every move of a deterministic automaton reads a character, and it is the only one that leads
from its state by that character. -/
theorem move_of_isDeterministic {l : Label} (hdet : a.isDeterministic = true)
    (ht : t ∈ a.targets s l) : l ≠ .epsilon ∧ ∀ u, u ∈ a.targets s l → u = t := by
  obtain ⟨ts, hts, ht⟩ := mem_targets_iff.1 ht
  have h := List.all_eq_true.1 hdet _ (OrdMap.mem_toList_iff.2 hts)
  simp only [Bool.and_eq_true, bne_iff_ne, decide_eq_true_eq] at h
  refine ⟨h.1, fun u hu => ?_⟩
  obtain ⟨us, hus, hu⟩ := mem_targets_iff.1 hu
  obtain rfl := Option.some.inj (hts.symm.trans hus)
  exact OrdSet.eq_of_size_le_one h.2 hu ht

/-- A deterministic automaton reaches one state at most. -/
theorem Path.unique {u : String} (hdet : a.isDeterministic = true) (h : a.Path s w t)
    (h' : a.Path s w u) : t = u := by
  induction h with
  | refl s =>
    cases h' with
    | refl => rfl
    | silent hstep => exact absurd rfl (move_of_isDeterministic hdet hstep).1
  | silent hstep => exact absurd rfl (move_of_isDeterministic hdet hstep).1
  | read hstep _ ih =>
    cases h' with
    | silent hstep' => exact absurd rfl (move_of_isDeterministic hdet hstep').1
    | read hstep' rest =>
      obtain rfl := (move_of_isDeterministic hdet hstep).2 _ hstep'
      exact ih rest

/-- **A deterministic automaton has the verdicts of any other that has its final states**, under
other names perhaps, wherever a word leads to. -/
theorem run_eq_of_final_iff {word : String} (hdet : a.isDeterministic = true)
    (hfinal : ∀ t, t ∈ b.finals ∧ b.Path b.initial word.toList t ↔
      ∃ u, (u ∈ a.finals ∧ a.Path a.initial word.toList u) ∧ f u = t)
    (htokens : ∀ u, u ∈ a.finals → b.tokens.get? (f u) = a.tokens.get? u) :
    b.run word = a.run word := by
  have haccepts : b.accepts word = true ↔ a.accepts word = true := by
    rw [accepts_iff, accepts_iff]
    simp only [hfinal]
    exact ⟨fun ⟨_, u, hu, _⟩ => ⟨u, hu⟩, fun ⟨u, hu⟩ => ⟨f u, u, hu, rfl⟩⟩
  cases hacc : a.accepts word with
  | false =>
    rw [run_of_not_accepts hacc, run_of_not_accepts (Bool.eq_false_iff.2 fun h => ?_)]
    exact absurd (haccepts.1 h) (Bool.eq_false_iff.1 hacc)
  | true =>
    -- The word leads to one state only, so the verdict has the token of this state.
    obtain ⟨t, ht, hpath⟩ := accepts_iff.1 hacc
    have hrun : a.run word = ⟨true, a.tokens.get? t⟩ := by
      refine run_of_final fun u => ⟨fun hu => hu.2.unique hdet hpath, ?_⟩
      rintro rfl
      exact ⟨ht, hpath⟩
    have hrun' : b.run word = ⟨true, b.tokens.get? (f t)⟩ := by
      refine run_of_final fun u => ?_
      rw [hfinal]
      constructor
      · intro hu
        obtain ⟨v, ⟨-, hv⟩, rfl⟩ := hu
        rw [hv.unique hdet hpath]
      · rintro rfl
        exact ⟨t, ⟨ht, hpath⟩, rfl⟩
    rw [hrun, hrun', htokens t ht]

/-! ## Automata that differ in names -/

namespace RenamedBy

variable (h : a.RenamedBy b f) (ha : a.SelfContained)

include h ha

theorem embeds : a.Embeds b f := by
  intro s hs l t
  rw [h.mem_targets]
  constructor
  · intro ht
    obtain ⟨r, u, hu, hr, rfl⟩ := ht
    obtain rfl := h.separates r (ha.mem_of_mem_targets hu).1 s hs hr
    exact ⟨u, hu, rfl⟩
  · intro ht
    obtain ⟨u, hu, rfl⟩ := ht
    exact ⟨s, u, hu, rfl, rfl⟩

/-- Paths from the initial state are carried over and back. -/
theorem path_iff : b.Path b.initial w t ↔ ∃ u, a.Path a.initial w u ∧ f u = t := by
  rw [h.initial]
  exact (h.embeds ha).path_iff ha ha.initial_mem

theorem mem_finals (hs : s ∈ a.states) : f s ∈ b.finals ↔ s ∈ a.finals := by
  rw [h.finals, OrdSet.mem_map]
  constructor
  · intro hmem
    obtain ⟨t, ht, hts⟩ := hmem
    rwa [← h.separates t (ha.finals_subset t ht) s hs hts]
  · exact fun hmem => ⟨s, hmem, rfl⟩

theorem get?_tokens (hs : s ∈ a.finals) : b.tokens.get? (f s) = a.tokens.get? s := by
  refine Option.ext fun token => ?_
  rw [h.tokens]
  constructor
  · intro htoken
    obtain ⟨r, hr, htoken, hrs⟩ := htoken
    rwa [← h.separates r (ha.finals_subset r hr) s (ha.finals_subset s hs) hrs]
  · exact fun htoken => ⟨s, hs, htoken, rfl⟩

theorem accepts_eq (word : String) : b.accepts word = a.accepts word := by
  rw [Bool.eq_iff_iff, accepts_iff, accepts_iff]
  constructor
  · intro haccepts
    obtain ⟨t, ht, hpath⟩ := haccepts
    obtain ⟨u, hu, rfl⟩ := (h.path_iff ha).1 hpath
    exact ⟨u, (h.mem_finals ha (ha.mem_of_path ha.initial_mem hu)).1 ht, hu⟩
  · intro haccepts
    obtain ⟨u, hu, hpath⟩ := haccepts
    exact ⟨f u, (h.mem_finals ha (ha.finals_subset u hu)).2 hu, (h.path_iff ha).2 ⟨u, hpath, rfl⟩⟩

/-- **New names keep every verdict of a deterministic automaton.** -/
theorem run_eq (hdet : a.isDeterministic = true) (word : String) : b.run word = a.run word := by
  refine run_eq_of_final_iff hdet (fun t => ?_) fun u hu => h.get?_tokens ha hu
  rw [h.path_iff ha]
  constructor
  · intro ht
    obtain ⟨ht, u, hu, rfl⟩ := ht
    exact ⟨u, ⟨(h.mem_finals ha (ha.mem_of_path ha.initial_mem hu)).1 ht, hu⟩, rfl⟩
  · intro hu
    obtain ⟨u, ⟨hu, hpath⟩, rfl⟩ := hu
    exact ⟨(h.mem_finals ha (ha.finals_subset u hu)).2 hu, u, hpath, rfl⟩

/-- The states and the final states are as many as before. -/
theorem size_eq : b.states.size = a.states.size ∧ b.finals.size = a.finals.size := by
  rw [h.states, h.finals]
  refine ⟨OrdSet.size_map h.separates, OrdSet.size_map fun s hs t ht => ?_⟩
  exact h.separates s (ha.finals_subset s hs) t (ha.finals_subset t ht)

/-- Under new names an automaton is still self-contained, if it knows the same characters. -/
theorem selfContained (halphabet : b.alphabet = a.alphabet) : b.SelfContained where
  initial_mem := by
    rw [h.initial, h.states]
    exact OrdSet.mem_map.2 ⟨_, ha.initial_mem, rfl⟩
  finals_subset := by
    intro s hs
    rw [h.finals, OrdSet.mem_map] at hs
    obtain ⟨r, hr, rfl⟩ := hs
    rw [h.states]
    exact OrdSet.mem_map.2 ⟨r, ha.finals_subset r hr, rfl⟩
  mem_of_mem_targets := by
    intro s l t ht
    obtain ⟨r, u, hu, rfl, rfl⟩ := h.mem_targets.1 ht
    obtain ⟨hr, hu⟩ := ha.mem_of_mem_targets hu
    rw [h.states]
    exact ⟨OrdSet.mem_map.2 ⟨r, hr, rfl⟩, OrdSet.mem_map.2 ⟨u, hu, rfl⟩⟩
  mem_alphabet := by
    intro s c t ht
    obtain ⟨r, u, hu, -, -⟩ := h.mem_targets.1 ht
    exact halphabet ▸ ha.mem_alphabet hu

end RenamedBy

/-! ## Renaming -/

theorem mem_targets_rename {l : Label} (ha : a.WellFormed) (hf : a.Separates f) :
    t ∈ (a.rename f).targets s l ↔ ∃ r u, u ∈ a.targets r l ∧ f r = s ∧ f u = t := by
  -- The renamed entries of a move are the entries of the moves that take its name.
  have hentry : ∀ {m us}, (m, us) ∈ a.transitions.toList.map
      (fun e => ((⟨f e.1.source, e.1.label⟩ : Move), e.2.map f)) ↔
        ∃ r vs, a.transitions.get? ⟨r, m.label⟩ = some vs ∧ f r = m.source ∧ vs.map f = us := by
    intro m us
    rw [List.mem_map]
    constructor
    · intro h
      obtain ⟨⟨⟨r, label⟩, vs⟩, hmem, heq⟩ := h
      obtain ⟨rfl, rfl⟩ := Prod.mk.inj heq
      exact ⟨r, vs, OrdMap.mem_toList_iff.1 hmem, rfl, rfl⟩
    · intro h
      obtain ⟨r, vs, hget, hr, rfl⟩ := h
      exact ⟨_, OrdMap.mem_toList_iff.2 hget, by rw [hr]⟩
  rw [mem_targets_iff]
  constructor
  · intro h
    obtain ⟨ts, hts, ht⟩ := h
    obtain ⟨r, vs, hvs, hr, rfl⟩ := hentry.1 (OrdMap.mem_of_get?_ofList hts)
    obtain ⟨u, hu, rfl⟩ := OrdSet.mem_map.1 ht
    exact ⟨r, u, mem_targets_iff.2 ⟨vs, hvs, hu⟩, hr, rfl⟩
  · intro h
    obtain ⟨r, u, hu, rfl, rfl⟩ := h
    obtain ⟨vs, hvs, hu⟩ := mem_targets_iff.1 hu
    refine ⟨vs.map f, ?_, OrdSet.mem_map.2 ⟨u, hu, rfl⟩⟩
    refine OrdMap.get?_ofList_eq (hentry.2 ⟨r, vs, hvs, rfl, rfl⟩) fun us hus => ?_
    obtain ⟨r', vs', hvs', hr', rfl⟩ := hentry.1 hus
    obtain rfl := hf r' (ha.source_mem _ _ hvs') r (ha.source_mem _ _ hvs) hr'
    rw [Option.some.inj (hvs'.symm.trans hvs)]

theorem get?_tokens_rename {token : String} (ha : a.WellFormed) (hf : a.Separates f) :
    (a.rename f).tokens.get? s = some token ↔
      ∃ r, r ∈ a.finals ∧ a.tokens.get? r = some token ∧ f r = s := by
  have hentry : ∀ {s token}, (s, token) ∈ a.tokens.toList.map (fun e => (f e.1, e.2)) ↔
      ∃ r, r ∈ a.finals ∧ a.tokens.get? r = some token ∧ f r = s := by
    intro s token
    rw [List.mem_map]
    constructor
    · intro h
      obtain ⟨⟨r, token'⟩, hmem, heq⟩ := h
      obtain ⟨rfl, rfl⟩ := Prod.mk.inj heq
      have hget := OrdMap.mem_toList_iff.1 hmem
      exact ⟨r, ha.token_final _ _ hget, hget, rfl⟩
    · intro h
      obtain ⟨r, -, hget, rfl⟩ := h
      exact ⟨_, OrdMap.mem_toList_iff.2 hget, rfl⟩
  constructor
  · exact fun h => hentry.1 (OrdMap.mem_of_get?_ofList h)
  · intro h
    refine OrdMap.get?_ofList_eq (hentry.2 h) fun token' hmem => ?_
    obtain ⟨r, hr, hget, rfl⟩ := h
    obtain ⟨r', hr', hget', hrr'⟩ := hentry.1 hmem
    obtain rfl := hf r' (ha.finals_subset _ hr') r (ha.finals_subset _ hr) hrr'
    exact Option.some.inj (hget'.symm.trans hget)

theorem renamedBy_rename (ha : a.WellFormed) (hf : a.Separates f) :
    a.RenamedBy (a.rename f) f where
  separates := hf
  states := rfl
  initial := rfl
  finals := rfl
  mem_targets := mem_targets_rename ha hf
  tokens := get?_tokens_rename ha hf

/-- Renaming cannot make an automaton less deterministic. -/
theorem isDeterministic_rename (hdet : a.isDeterministic = true) :
    (a.rename f).isDeterministic = true := by
  rw [isDeterministic, List.all_eq_true] at hdet ⊢
  rintro ⟨move, targets⟩ he
  obtain ⟨⟨move', targets'⟩, hmem, heq⟩ :=
    List.mem_map.1 (OrdMap.mem_of_get?_ofList (OrdMap.mem_toList_iff.1 he))
  obtain ⟨rfl, rfl⟩ := Prod.mk.inj heq
  have hentry := hdet _ hmem
  rw [Bool.and_eq_true, decide_eq_true_iff] at hentry ⊢
  exact hentry.imp_right OrdSet.size_map_le.trans

/-- Under any names, though they may mix states up, the parts of an automaton fit together. -/
theorem wellFormed_rename (ha : a.WellFormed) (f : String → String) :
    (a.rename f).WellFormed := by
  have hentry : ∀ {move ts}, (a.rename f).transitions.get? move = some ts →
      ∃ r us, a.transitions.get? ⟨r, move.label⟩ = some us ∧ f r = move.source ∧ us.map f = ts := by
    intro move ts h
    obtain ⟨⟨⟨r, label⟩, us⟩, hmem, heq⟩ := List.mem_map.1 (OrdMap.mem_of_get?_ofList h)
    obtain ⟨rfl, rfl⟩ := Prod.mk.inj heq
    exact ⟨r, us, OrdMap.mem_toList_iff.1 hmem, rfl, rfl⟩
  have hstate : ∀ {s}, s ∈ a.states → f s ∈ (a.rename f).states :=
    fun h => OrdSet.mem_map.2 ⟨_, h, rfl⟩
  exact {
    initial_mem := hstate ha.initial_mem
    finals_subset := by
      intro s hs
      obtain ⟨r, hr, rfl⟩ := OrdSet.mem_map.1 hs
      exact hstate (ha.finals_subset r hr)
    source_mem := by
      intro move ts h
      obtain ⟨r, us, hus, hr, -⟩ := hentry h
      exact hr ▸ hstate (ha.source_mem _ _ hus)
    target_mem := by
      intro move ts h t ht
      obtain ⟨r, us, hus, -, rfl⟩ := hentry h
      obtain ⟨u, hu, rfl⟩ := OrdSet.mem_map.1 ht
      exact hstate (ha.target_mem _ _ hus u hu)
    target_exists := by
      intro move ts h
      obtain ⟨r, us, hus, -, rfl⟩ := hentry h
      obtain ⟨u, hu⟩ := ha.target_exists _ _ hus
      exact ⟨f u, OrdSet.mem_map.2 ⟨u, hu, rfl⟩⟩
    symbol_mem := by
      intro s c ts h
      obtain ⟨r, us, hus, -, -⟩ := hentry h
      exact ha.symbol_mem r c us hus
    token_final := by
      intro s token h
      obtain ⟨⟨r, token'⟩, hmem, heq⟩ := List.mem_map.1 (OrdMap.mem_of_get?_ofList h)
      obtain ⟨rfl, -⟩ := Prod.mk.inj heq
      exact OrdSet.mem_map.2 ⟨r, ha.token_final _ _ (OrdMap.mem_toList_iff.1 hmem), rfl⟩ }

/-! ## Canonical names -/

theorem mem_canonicalOrder (h : s ∈ a.states) : s ∈ a.canonicalOrder := by
  rw [canonicalOrder, List.mem_append, List.mem_filter]
  by_cases hs : s ∈ explore a.successors (1 + a.transitionCount) [a.initial]
  · exact .inl hs
  · exact .inr ⟨h, decide_eq_true hs⟩

/-- The canonical names tell the states apart. -/
theorem separates_canonical :
    a.Separates fun s => "q" ++ toString (a.canonicalOrder.idxOf s) := by
  intro s hs t _ h
  have hnumber : toString (a.canonicalOrder.idxOf s) = toString (a.canonicalOrder.idxOf t) :=
    String.append_right_inj _ |>.1 h
  exact (List.idxOf_inj (mem_canonicalOrder hs)).1 (Nat.repr_injective hnumber)

/-- An automaton with canonical names differs in names alone. -/
theorem renamedBy_canonical (ha : a.WellFormed) :
    a.RenamedBy a.canonical fun s => "q" ++ toString (a.canonicalOrder.idxOf s) :=
  renamedBy_rename ha separates_canonical

theorem wellFormed_canonical (ha : a.WellFormed) : a.canonical.WellFormed :=
  wellFormed_rename ha _

end Frontend.Automaton
