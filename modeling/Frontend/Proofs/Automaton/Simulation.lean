import Frontend.Proofs.Automaton.Building
import Frontend.Proofs.Automaton.Paths
import Frontend.Proofs.Searches

/-!
# Runs of nondeterministic automata

A run of an automaton with silent moves keeps the set of all states that the word can have led
to. Any search along the silent moves finds such a set, in whatever order it goes on and also
where the moves go in circles, and the search comes to an end, since there are no more states to
find than the start holds and transitions lead to (`atMost_silent`).

The verdict on a word is that of the paths that spell it (`run_spec`): it is accepted if such a
path leads to a final state, and of the tokens of these final states the one counts whose state
has the first name. The states are kept in the order of their names, so the first one in the
list that has a token is the one with the least name (`findSome?_eq_some_iff_least`).
-/

namespace Frontend

/-! ## The least element that has something -/

/-- A search through an increasing list finds what the least element has, of those that have
anything. -/
theorem findSome?_eq_some_iff_least {α β : Type} [LT α] [StrictTotal α] {l : List α}
    (hl : l.Pairwise (· < ·)) {f : α → Option β} {b : β} :
    l.findSome? f = some b ↔
      ∃ a ∈ l, f a = some b ∧ ∀ a' ∈ l, (∃ b', f a' = some b') → ¬ a' < a := by
  induction l with
  | nil => simp
  | cons x l ih =>
    obtain ⟨hx, hl⟩ := List.pairwise_cons.1 hl
    rw [List.findSome?_cons]
    cases hfx : f x with
    | none =>
      -- An element that has nothing does not count.
      have hskip : ∀ a ∈ x :: l, (∃ b', f a = some b') → a ∈ l := by
        intro a ha hsome
        obtain ⟨b', hb'⟩ := hsome
        refine (List.mem_cons.1 ha).resolve_left fun heq => ?_
        rw [heq, hfx] at hb'
        cases hb'
      dsimp only
      rw [ih hl]
      constructor
      · intro h
        obtain ⟨a, ha, hb, hleast⟩ := h
        exact ⟨a, .tail _ ha, hb, fun a' ha' hsome => hleast a' (hskip a' ha' hsome) hsome⟩
      · intro h
        obtain ⟨a, ha, hb, hleast⟩ := h
        exact ⟨a, hskip a ha ⟨b, hb⟩, hb, fun a' ha' => hleast a' (.tail _ ha')⟩
    | some y =>
      constructor
      · intro h
        refine ⟨x, List.mem_cons_self, hfx.trans h, fun a' ha' _ hlt => ?_⟩
        rcases List.mem_cons.1 ha' with rfl | ha'
        · exact StrictTotal.lt_irrefl _ hlt
        · exact StrictTotal.lt_asymm hlt (hx a' ha')
      · intro h
        obtain ⟨a, ha, hb, hleast⟩ := h
        rcases List.mem_cons.1 ha with rfl | ha
        · exact hfx.symm.trans hb
        · exact absurd (hx a ha) (hleast x List.mem_cons_self ⟨y, hfx⟩)

namespace Automaton

open Relation (ReflTransGen)

variable {a : Automaton} {s t : String} {w : List Char}

/-! ## Verdicts -/

/-- A path that spells the word leads to the final state. -/
def LeadsToFinal (a : Automaton) (w : List Char) (t : String) : Prop :=
  t ∈ a.finals ∧ a.Path a.initial w t

theorem mem_finalsIn_reached : t ∈ a.finalsIn (a.reached w) ↔ a.LeadsToFinal w t := by
  rw [mem_finalsIn, mem_reached, and_comm, LeadsToFinal]

theorem pairwise_finalsIn (states : OrdSet String) :
    (a.finalsIn states).Pairwise (· < ·) :=
  states.sorted.filter _

theorem token_run (word : String) :
    (a.run word).token = (a.finalsIn (a.reached word.toList)).findSome? a.tokens.get? := rfl

/-- **What a run finds is what the paths are.** The search along silent moves ends, in whatever
order it goes on, and finds the states that such moves lead to. A word is accepted if a path that
spells it leads to a final state; it has the token of the first such state by name that has one,
and none if none of them has. -/
theorem run_spec (a : Automaton) :
    (∀ states : List String,
      Acc (fun later now => SearchState.Expands a.silent now later) (.initial states) ∧
      (∀ s, ReflTransGen (SearchState.Expands a.silent) (.initial states) s → s.todo = [] →
        ∀ t, t ∈ s.found ↔ t ∈ a.closure states) ∧
      ∀ t, t ∈ a.closure states ↔
        ∃ s ∈ states, ReflTransGen (fun s t => t ∈ a.targets s .epsilon) s t) ∧
    ∀ word : String,
      ((a.run word).accepted = true ↔ ∃ t, a.LeadsToFinal word.toList t) ∧
      (∀ token, (a.run word).token = some token ↔
        ∃ t, a.LeadsToFinal word.toList t ∧ a.tokens.get? t = some token ∧
          ∀ u, a.LeadsToFinal word.toList u → (∃ other, a.tokens.get? u = some other) → t ≤ u) ∧
      ((a.run word).token = none ↔
        ∀ t, a.LeadsToFinal word.toList t → a.tokens.get? t = none) := by
  refine ⟨fun states => ⟨SearchState.acc_initial (atMost_silent states), fun s hrun hdone t => ?_,
    fun t => mem_closure_iff_reachable⟩, fun word => ⟨accepts_iff, fun token => ?_, ?_⟩⟩
  · rw [SearchState.mem_found_iff hrun hdone, mem_closure_iff_reachable]
  · rw [token_run, findSome?_eq_some_iff_least (pairwise_finalsIn _)]
    simp only [mem_finalsIn_reached]
    rfl
  · rw [token_run, List.findSome?_eq_none_iff]
    simp only [mem_finalsIn_reached]

/-- Silent moves lead from `a` to `b` and back, and from `c` to `d` and back. The word `x` leads
to three final states, the first of them without a token. -/
def circular : Automaton :=
  build "a"
    [("a", .epsilon, "b"), ("b", .epsilon, "a"), ("b", .symbol 'x', "c"), ("c", .epsilon, "d"),
      ("d", .epsilon, "c"), ("d", .epsilon, "e")]
    [("c", none), ("e", some "LATE"), ("d", some "EARLY")]

theorem run_spec_circular :
    (∃ s, ReflTransGen (SearchState.Expands circular.silent) (.initial ["a"]) s ∧ s.todo = [] ∧
      ∀ t, t ∈ s.found ↔ t ∈ circular.closure ["a"]) ∧
    (circular.run "x").token = some "EARLY" ∧
    ∃ t, circular.LeadsToFinal "x".toList t ∧ circular.tokens.get? t = some "EARLY" ∧
      ∀ u, circular.LeadsToFinal "x".toList u →
        (∃ other, circular.tokens.get? u = some other) → t ≤ u := by
  obtain ⟨hsearch, hverdicts⟩ := run_spec circular
  obtain ⟨-, hfound, -⟩ := hsearch ["a"]
  obtain ⟨-, htoken, -⟩ := hverdicts "x"
  have hrun : ReflTransGen (SearchState.Expands circular.silent) (.initial ["a"])
      ⟨["b", "a"], []⟩ :=
    .head ⟨"a", by decide, rfl⟩ (.single ⟨"b", by decide +kernel, by decide +kernel⟩)
  have hearly : (circular.run "x").token = some "EARLY" := by decide +kernel
  exact ⟨⟨_, hrun, rfl, hfound _ hrun rfl⟩, hearly, (htoken "EARLY").1 hearly⟩

end Automaton

end Frontend
