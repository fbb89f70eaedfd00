import Frontend.Proofs.Automaton.Accessible
import Frontend.Proofs.Regex.Compilation

/-!
# No state of the automaton of a pattern is useless

Each state of the automaton of a pattern is reached from the initial state, and from each of them
a final state is reached (`trim_compiled`). So a word on which the automaton is not stuck is the
beginning of a word that it accepts.

The first half holds because the states come from a search. The second half is about positions:
no expression is without words, so from each of its positions others follow up to one that ends
a word (`Expr.exists_last_of_mem_positions`), and in the expression with the mark behind it only
the mark ends a word. The automaton can read the symbols along such positions from any set that
holds the first of them, and is then in a set with the mark (`Tree.exists_marker_mem_foldl`).
-/

namespace Frontend

open Relation (ReflTransGen)

/-! ## Automata without useless states -/

/-- Every state is reached by some word, and from every state some word leads to a final state. -/
structure Automaton.Trim (a : Automaton) : Prop where
  accessible : a.Accessible
  coaccessible : ∀ s ∈ a.states, ∃ w t, t ∈ a.finals ∧ a.Path s w t

/-- A trim automaton is not stuck on a word exactly if the word can be completed to one that is
accepted. -/
theorem Automaton.Trim.exists_mem_reached_iff {a : Automaton} {w : List Char} (h : a.Trim)
    (ha : a.SelfContained) :
    (∃ s, s ∈ a.reached w) ↔ ∃ v, a.accepts (String.ofList (w ++ v)) = true := by
  simp only [mem_reached, accepts_iff, String.toList_ofList]
  constructor
  · intro hreached
    obtain ⟨s, hpath⟩ := hreached
    obtain ⟨v, t, ht, hrest⟩ := h.coaccessible s (ha.mem_of_path ha.initial_mem hpath)
    exact ⟨v, t, ht, hpath.trans hrest⟩
  · intro haccepts
    obtain ⟨v, t, -, hpath⟩ := haccepts
    obtain ⟨s, hpath, -⟩ := Path.append_iff.1 hpath
    exact ⟨s, hpath⟩

/-- States that are sets are all of use if a search finds the sets and a final set can be reached
from each. -/
theorem SetSystem.trim_automaton {α : Type} [LT α] {m : SetSystem α} (hm : m.Proper)
    (hsearch : ∀ set ∈ m.sets, Reachable m.successors [m.start] set)
    (hfinal : ∀ set ∈ m.sets, ∃ w : List Char, m.isFinal (w.foldl m.next set) = true) :
    m.automaton.Trim := by
  refine ⟨accessible_automaton hm hsearch, fun s hs => ?_⟩
  obtain ⟨set, hset, rfl⟩ := List.mem_map.1 (OrdSet.mem_ofList.1 hs)
  obtain ⟨w, hw⟩ := hfinal set hset
  have hsome := exists_mem_of_isFinal hm hw
  have hmem := foldl_next_mem_sets hm hset hsome
  -- The empty set leads nowhere, so the one that `w` is read from is not empty.
  have hstart : ∃ x, x ∈ set := by
    refine OrdSet.exists_mem_of_ne_empty fun hempty => ?_
    rw [hempty] at hsome
    exact hsome.elim (foldl_next_empty hm)
  exact ⟨w, _, (mem_finals_iff hm hmem).2 hw, (path_iff hm hset hstart).2 ⟨hsome, hmem, rfl⟩⟩

namespace Regex

/-! ## From positions to the end of words -/

/-- **From every position others follow up to one that ends a word.** -/
theorem Expr.exists_last_of_mem_positions {e : Expr} {p : Nat} (hp : p ∈ e.positions) :
    ∃ q, q ∈ e.last ∧ ReflTransGen e.Follows p q := by
  induction e generalizing p with
  | symbol p' c => exact ⟨p, OrdSet.mem_singleton.2 (List.mem_singleton.1 hp), .refl⟩
  | epsilon => cases hp
  | marker p' => exact ⟨p, OrdSet.mem_singleton.2 (List.mem_singleton.1 hp), .refl⟩
  | star e ih =>
    obtain ⟨q, hq, hchain⟩ := ih hp
    exact ⟨q, hq, ReflTransGen.mono (fun _ _ h => .inl h) _ _ hchain⟩
  | concat l r ihl ihr =>
    have hright : ∀ p ∈ r.positions,
        ∃ q, q ∈ (concat l r).last ∧ ReflTransGen (concat l r).Follows p q := by
      intro p hp
      obtain ⟨q, hq, hchain⟩ := ihr hp
      exact ⟨q, mem_last_concat.2 (.inl hq),
        ReflTransGen.mono (fun _ _ h => .inl (.inr h)) _ _ hchain⟩
    rcases List.mem_append.1 hp with hp | hp
    · obtain ⟨q, hq, hchain⟩ := ihl hp
      have hleft : ReflTransGen (concat l r).Follows p q :=
        ReflTransGen.mono (fun _ _ h => .inl (.inl h)) _ _ hchain
      -- The end of a word of the left part ends a word, or a word of the right part comes next.
      rcases r.nullable_or_exists_first with hnull | ⟨q', hq'⟩
      · exact ⟨q, mem_last_concat.2 (.inr ⟨hnull, hq⟩), hleft⟩
      · obtain ⟨last, hlast, hrest⟩ := hright q' (mem_positions_of_mem_first hq')
        exact ⟨last, hlast, hleft.trans (.head (.inr ⟨hq, hq'⟩) hrest)⟩
    · exact hright p hp
  | alt l r ihl ihr =>
    rcases List.mem_append.1 hp with hp | hp
    · obtain ⟨q, hq, hchain⟩ := ihl hp
      exact ⟨q, mem_last_alt.2 (.inl hq), ReflTransGen.mono (fun _ _ h => .inl h) _ _ hchain⟩
    · obtain ⟨q, hq, hchain⟩ := ihr hp
      exact ⟨q, mem_last_alt.2 (.inr hq), ReflTransGen.mono (fun _ _ h => .inr h) _ _ hchain⟩

namespace Tree

variable {t : Tree} {p q : Nat} {here : OrdSet Nat}

/-- A position that another one follows has a symbol. -/
theorem Numbered.exists_symbol (ht : t.Numbered) (h : t.root.Follows p q) :
    ∃ c, t.symbolAt.get? p = some c := by
  have hp : p ∈ t.body.positions := by
    rcases h with (h | h) | h
    · exact h.mem_positions.1
    · exact h.elim
    · exact Expr.mem_positions_of_mem_last h.1
  rw [← Expr.map_fst_symbols ht.plain] at hp
  obtain ⟨⟨p, c⟩, hmem, rfl⟩ := List.mem_map.1 hp
  exact ⟨c, ht.get?_symbolAt.2 hmem⟩

/-- From a set that holds a position the symbols of some word lead to a set with the mark. -/
theorem exists_marker_mem_foldl (ht : t.Numbered) (hp : p ∈ here) (hmem : p ∈ t.root.positions) :
    ∃ w : List Char, t.markerPosition ∈ w.foldl (next t.follow t.symbolAt) here := by
  obtain ⟨q, hq, hchain⟩ := Expr.exists_last_of_mem_positions hmem
  obtain rfl := mem_last_root.1 hq
  clear hmem hq
  induction hchain using ReflTransGen.head_induction_on generalizing here with
  | refl => exact ⟨[], hp⟩
  | head hfollows _ ih =>
    obtain ⟨c, hc⟩ := ht.exists_symbol hfollows
    obtain ⟨w, hw⟩ := ih (mem_next.2 ⟨_, hp, hc, hfollows⟩)
    exact ⟨c :: w, hw⟩

/-- The sets that a search finds are not empty. -/
theorem exists_mem_of_mem_positionSets (ht : t.Numbered) (h : here ∈ t.positionSets) :
    ∃ p, p ∈ here := by
  have hproper : (t.positionSystem "").Proper := proper_positionSystem ht
  refine ((mem_positionSets ht).1 h).induction (p := fun ps => ∃ p, p ∈ ps) ?_ ?_
  · intro ps hps
    rw [List.mem_singleton.1 hps]
    exact hproper.start_nonempty
  · intro ps qs _ hqs
    have hsome := (List.mem_filter.1 hqs).2
    rwa [Bool.not_eq_true', OrdSet.isEmpty_eq_false_iff] at hsome

theorem trim_toAutomaton (ht : t.Numbered) (token : String) : (t.toAutomaton token).Trim := by
  rw [toAutomaton_eq]
  refine SetSystem.trim_automaton (proper_positionSystem ht)
    (fun set hset => (mem_positionSets ht).1 hset) fun set hset => ?_
  obtain ⟨p, hp⟩ := exists_mem_of_mem_positionSets ht hset
  have hmem := mem_positions_of_reachable ((mem_positionSets ht).1 hset) p hp
  obtain ⟨w, hw⟩ := exists_marker_mem_foldl ht hp hmem
  exact ⟨w, decide_eq_true hw⟩

end Tree

/-! ## Automata of patterns -/

variable {text : String} {t : Tree}

/-- **The automaton of a pattern is trim.** The worklist of its sets of positions comes to its
end, its states are these sets under names that tell all sets apart, and none of the states is
useless. So a word on which the automaton is not stuck is the beginning of an accepted word, and
no other word is. -/
theorem trim_compiled (h : compile text = .ok t) (token : String) :
    Finishes t.nextSets [] [t.root.first] t.positionSets ∧
      Function.Injective Tree.setName ∧
      (∀ s, s ∈ (t.toAutomaton token).states ↔ ∃ ps ∈ t.positionSets, Tree.setName ps = s) ∧
      (t.toAutomaton token).Trim ∧
      ∀ w, (∃ s, s ∈ (t.toAutomaton token).reached w) ↔
        ∃ v, (t.toAutomaton token).accepts (String.ofList (w ++ v)) = true := by
  have ht := numbered_of_compile h
  have htrim := Tree.trim_toAutomaton ht token
  refine ⟨Tree.finishes_positionSets ht, Tree.setName_injective, fun s => ?_, htrim, fun w => ?_⟩
  · exact OrdSet.mem_ofList.trans List.mem_map
  · exact htrim.exists_mem_reached_iff (Tree.wellFormed_toAutomaton ht).selfContained

/-- Repetitions in repetitions, parts that can be empty, and a part that says nothing. -/
theorem trim_compiled_nested :
    ∃ t, compile "((a*b?)*&c)+|d" = .ok t ∧ (t.toAutomaton "T").Trim ∧
      (t.toAutomaton "T").accepts "aabc" = true ∧ (t.toAutomaton "T").accepts "aab" = false ∧
      (∃ v, (t.toAutomaton "T").accepts (String.ofList ("aab".toList ++ v)) = true) ∧
      ¬ ∃ v, (t.toAutomaton "T").accepts (String.ofList ("ad".toList ++ v)) = true := by
  obtain ⟨t, ht⟩ : ∃ t, compile "((a*b?)*&c)+|d" = .ok t := ⟨_, rfl⟩
  obtain ⟨-, -, -, htrim, hprefix⟩ := trim_compiled ht "T"
  have hverdicts : (compile "((a*b?)*&c)+|d").map (fun t =>
      ((t.toAutomaton "T").accepts "aabc", (t.toAutomaton "T").accepts "aab",
        ((t.toAutomaton "T").reached "aab".toList).isEmpty,
        ((t.toAutomaton "T").reached "ad".toList).isEmpty)) =
      .ok (true, false, false, true) := by decide +kernel
  rw [ht] at hverdicts
  simp only [Except.map, Except.ok.injEq, Prod.mk.injEq] at hverdicts
  obtain ⟨haccepts, hrefuses, hgoes, hstuck⟩ := hverdicts
  refine ⟨t, ht, htrim, haccepts, hrefuses, ?_, ?_⟩
  · rw [← hprefix]
    exact OrdSet.isEmpty_eq_false_iff.1 hgoes
  · rw [← hprefix, not_exists]
    exact OrdSet.isEmpty_iff.1 hstuck

end Regex

end Frontend
