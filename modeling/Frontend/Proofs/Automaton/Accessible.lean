import Frontend.Proofs.Automaton.Building
import Frontend.Proofs.Automaton.Renaming
import Frontend.Proofs.Automaton.Subsets

/-!
# Automata without unreachable states

Where states are sets that a search has found step by step, each of them is reached by some word
(`SetSystem.accessible_automaton`). So it is with the subset construction
(`accessible_determinize`), and new names do not change that. A state
that is reached is initial or a transition leads to it, so an automaton of this kind is known
from its transitions and its initial state.
-/

namespace Frontend

variable {a b : Automaton} {f : String → String} {s t : String} {w : List Char}

namespace Automaton

/-- Every state is reached by some word. -/
def Accessible (a : Automaton) : Prop := ∀ s ∈ a.states, ∃ w, a.Path a.initial w s

/-- A path that goes anywhere ends in a move. -/
theorem Path.eq_or_exists_mem_targets (h : a.Path s w t) : t = s ∨ ∃ r l, t ∈ a.targets r l := by
  induction h with
  | refl s => exact .inl rfl
  | silent hstep _ ih => exact .inr (ih.elim (fun h => h ▸ ⟨_, _, hstep⟩) id)
  | read hstep _ ih => exact .inr (ih.elim (fun h => h ▸ ⟨_, _, hstep⟩) id)

theorem Accessible.mentions (ha : a.Accessible) (hs : s ∈ a.states) : a.Mentions s := by
  obtain ⟨w, hpath⟩ := ha s hs
  rcases hpath.eq_or_exists_mem_targets with h | ⟨r, l, h⟩
  · exact .inl h
  · exact .inr (.inr ⟨l, r, .inr h⟩)

theorem RenamedBy.accessible (h : a.RenamedBy b f) (ha : a.SelfContained)
    (haccessible : a.Accessible) : b.Accessible := by
  intro s hs
  rw [h.states, OrdSet.mem_map] at hs
  obtain ⟨r, hr, rfl⟩ := hs
  obtain ⟨w, hpath⟩ := haccessible r hr
  exact ⟨w, (h.path_iff ha).2 ⟨r, hpath, rfl⟩⟩

end Automaton

namespace SetSystem

variable {α : Type} [LT α] {m : SetSystem α}

/-- The sets that have states and that one more character leads to. -/
def successors (m : SetSystem α) (here : OrdSet α) : List (OrdSet α) :=
  (m.alphabet.toList.map (m.next here)).filter fun s => !s.isEmpty

/-- **A state is reached by some word** if its set is reached by a search. -/
theorem accessible_automaton (hm : m.Proper)
    (hsearch : ∀ set ∈ m.sets, Reachable m.successors [m.start] set) :
    m.automaton.Accessible := by
  intro s hs
  obtain ⟨set, hset, rfl⟩ := List.mem_map.1 (OrdSet.mem_ofList.1 hs)
  -- The induction is over the steps of the search that found the set of the state.
  refine ((hsearch set hset).induction
    (p := fun set => set ∈ m.sets ∧ ∃ w, m.automaton.Path m.automaton.initial w (m.name set))
    ?_ ?_).2
  · intro set hset
    rw [List.mem_singleton.1 hset]
    exact ⟨hm.start_mem, [], .refl _⟩
  · intro set set' h hstep
    obtain ⟨hset, w, hpath⟩ := h
    obtain ⟨hmem, hsome⟩ := List.mem_filter.1 hstep
    obtain ⟨c, -, rfl⟩ := List.mem_map.1 hmem
    rw [Bool.not_eq_true', OrdSet.isEmpty_eq_false_iff] at hsome
    exact ⟨hm.next_mem set hset c hsome, w ++ [c],
      hpath.trans (.read ((mem_targets_symbol hm hset).2 ⟨hsome, rfl⟩) (.refl _))⟩

end SetSystem

namespace Automaton

/-- **Every state of the subset construction is reached by some word.** -/
theorem accessible_determinize (ha : a.SelfContained) (priority : List String) :
    (a.determinize priority).Accessible := by
  rw [determinize_eq]
  exact SetSystem.accessible_automaton (proper_subsetSystem ha)
    fun set hset => (mem_reachableSets ha).1 hset

/-- The token of a final state that a word reaches is in the verdict on the word. -/
theorem token_run_of_path {token : String} (hdet : a.isDeterministic = true) (hs : s ∈ a.finals)
    (hpath : a.Path a.initial w s) (htoken : a.tokens.get? s = some token) :
    (a.run (String.ofList w)).token = some token := by
  rw [← String.toList_ofList (l := w)] at hpath
  rw [run_of_final fun t => ⟨fun ht => ht.2.unique hdet hpath, ?_⟩, htoken]
  intro h
  subst h
  exact ⟨hs, hpath⟩

end Automaton

end Frontend
