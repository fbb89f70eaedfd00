import Frontend.Proofs.Automaton.CanonicalForm
import Frontend.Proofs.Automaton.WellFormedness
import Mathlib.Data.Set.Function

/-!
# The canonical form is a normal form

The canonical order lists every state once, those out of reach too (`length_canonicalOrder`), and
begins with the initial state. So the canonical names are `q0`, `q1`, … as far as there are states,
each for one state (`bijOn_canonical`). The canonical form is therefore the automaton under other
names, and with what is known about renamings it is a normal form (`canonical_spec`): automata that
differ in names alone have the same one, if they are deterministic and all their states are reached.
-/

namespace Frontend.Automaton

variable {a : Automaton}

/-! ## The order of the names -/

theorem nodup_canonicalOrder : a.canonicalOrder.Nodup := by
  unfold canonicalOrder
  refine List.nodup_append.2 ⟨nodup_explore, a.states.nodup.filter _, fun s hs t ht heq => ?_⟩
  have hnew := (List.mem_filter.1 ht).2
  rw [decide_eq_true_iff] at hnew
  exact hnew (heq ▸ hs)

/-- The canonical order lists every state once. -/
theorem length_canonicalOrder (ha : a.SelfContained) :
    a.canonicalOrder.length = a.states.size := by
  refine (OrdSet.size_eq_length nodup_canonicalOrder fun s => ?_).symm
  exact ⟨mem_canonicalOrder, mem_states_of_mem_canonicalOrder ha⟩

/-- The canonical order begins with the initial state, wherever the search goes from there. -/
theorem idxOf_initial : a.canonicalOrder.idxOf a.initial = 0 := by
  obtain ⟨more, hmore⟩ := explore_cons a.successors (1 + a.transitionCount) a.initial
  unfold canonicalOrder
  rw [hmore]
  exact List.idxOf_cons_self

/-- **The canonical names are the first ones in their order**, and each is that of one state. -/
theorem bijOn_canonical (ha : a.SelfContained) :
    Set.BijOn (fun s => "q" ++ toString (a.canonicalOrder.idxOf s)) {s | s ∈ a.states}
      {name | ∃ i < a.states.size, name = "q" ++ toString i} := by
  refine ⟨fun s hs => ?_, fun s hs t ht => separates_canonical s hs t ht, fun name h => ?_⟩
  · refine ⟨_, ?_, rfl⟩
    rw [← length_canonicalOrder ha]
    exact List.idxOf_lt_length_of_mem (mem_canonicalOrder hs)
  · obtain ⟨i, hi, rfl⟩ := h
    rw [← length_canonicalOrder ha] at hi
    refine ⟨a.canonicalOrder[i], ?_, ?_⟩
    · exact mem_states_of_mem_canonicalOrder ha (List.getElem_mem hi)
    · show "q" ++ toString (a.canonicalOrder.idxOf a.canonicalOrder[i]) = "q" ++ toString i
      rw [nodup_canonicalOrder.idxOf_getElem i hi]

/-! ## Normal forms -/

/-- **The canonical form is a normal form.** It is the automaton with the names `q0`, `q1`, … in
place of its states, the initial one being `q0`, so it accepts the same words, and gives the same
verdicts if the automaton is deterministic. If in addition all states are reached, the names that
they had before do not matter. -/
theorem canonical_spec (ha : a.WellFormed) :
    (∃ f, Set.BijOn f {s | s ∈ a.states} {name | ∃ i < a.states.size, name = "q" ++ toString i} ∧
      f a.initial = "q0" ∧ a.canonical = a.rename f ∧ a.RenamedBy a.canonical f) ∧
    a.canonical.alphabet = a.alphabet ∧
    (∀ word, a.canonical.accepts word = a.accepts word) ∧
    (a.isDeterministic = true → ∀ word, a.canonical.run word = a.run word) ∧
    (a.isDeterministic = true → a.Accessible →
      ∀ f, a.Separates f → (a.rename f).canonical = a.canonical) := by
  have hself := ha.selfContained
  have hrenamed := renamedBy_canonical ha
  refine ⟨⟨_, bijOn_canonical hself, ?_, rfl, hrenamed⟩, rfl, hrenamed.accepts_eq hself,
    hrenamed.run_eq hself, fun hdet haccess f hf => ?_⟩
  · rw [idxOf_initial]
    rfl
  · exact (renamedBy_rename ha hf).canonical_eq ha hdet haccess rfl (wellFormed_rename ha f)

/-- States that have each other's canonical names. -/
def misnamed : Automaton :=
  build "q2"
    [("q2", .symbol 'a', "q0"), ("q2", .symbol 'b', "q1"), ("q0", .symbol 'a', "q1"),
      ("q1", .symbol 'b', "q2")]
    [("q0", some "ODD"), ("q1", none)]

/-- Another automaton has moves that read nothing, two moves on one character, and a state that
is not reached. -/
def stranded : Automaton :=
  build "s" [("s", .epsilon, "t"), ("t", .symbol 'a', "s"), ("t", .symbol 'a', "u"),
    ("q0", .symbol 'b', "u")] [("u", some "A")]

theorem canonical_spec_misnamed :
    misnamed.WellFormed ∧ stranded.WellFormed ∧
      misnamed.canonical ≠ misnamed ∧
      misnamed.canonical.run "bba" = ⟨true, some "ODD"⟩ ∧
      (misnamed.rename fun s => s ++ "'").canonical = misnamed.canonical ∧
      stranded.canonical.accepts "aa" = true := by
  have hmisnamed : misnamed.WellFormed := wellFormed_build _ _ _
  have hstranded : stranded.WellFormed := wellFormed_build _ _ _
  have hdet : misnamed.isDeterministic = true := by decide +kernel
  have haccess : misnamed.Accessible := by
    have hwords : ∀ s ∈ misnamed.states.toList, ∃ word ∈ ["", "a", "b"],
        s ∈ misnamed.reached word.toList := by decide +kernel
    intro s hs
    obtain ⟨word, -, hreached⟩ := hwords s hs
    exact ⟨_, mem_reached.1 hreached⟩
  obtain ⟨-, -, -, hrun, hnames⟩ := canonical_spec hmisnamed
  obtain ⟨-, -, haccepts, -, -⟩ := canonical_spec hstranded
  refine ⟨hmisnamed, hstranded, by decide +kernel, ?_, ?_, ?_⟩
  · exact (hrun hdet "bba").trans (by decide +kernel)
  · exact hnames hdet haccess _ fun s _ t _ h => String.append_left_inj _ |>.1 h
  · exact (haccepts "aa").trans (by decide +kernel)

end Frontend.Automaton
