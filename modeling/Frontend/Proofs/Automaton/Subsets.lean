import Frontend.Automaton.Determinize
import Frontend.Proofs.Automaton.Building
import Frontend.Proofs.Automaton.SetStates
import Frontend.Proofs.FreshNames

/-!
# The subset construction is right

The subset construction is an automaton whose states are sets (`determinize_eq`): those that
words can lead to, each under its own name (`nameOf_injective`), even where the members of two
sets spell the same name. So the automaton that it gives accepts the same words
(`accepts_determinize`), and its verdict is the token of the highest priority among those of
the final states that a word leads to (`token_determinize`, `preferredToken_eq_some`). The
worklist of sets comes to its end (`finishes_reachableSets`); `determinize_spec` says all of this
about automata that are self-contained.
-/

namespace Frontend.Automaton

variable {a : Automaton} {priority : List String}

/-! ## Names of sets -/

theorem setName_injective (s : OrdSet String) : Function.Injective (setName s) :=
  append_repeated_injective _ (by decide)

theorem map_fst_nameSets (used : List String) (sets : List (OrdSet String)) :
    (nameSets used sets).map Prod.fst = sets := by
  induction sets generalizing used with
  | nil => rfl
  | cons s sets ih =>
    rw [nameSets, List.map_cons, ih]

theorem nodup_nameSets (used : List String) (sets : List (OrdSet String)) :
    ((nameSets used sets).map Prod.snd).Nodup ∧
      ∀ name ∈ (nameSets used sets).map Prod.snd, name ∉ used := by
  induction sets generalizing used with
  | nil => exact ⟨List.nodup_nil, fun _ h => absurd h List.not_mem_nil⟩
  | cons s sets ih =>
    obtain ⟨hnodup, hunused⟩ := ih (fresh used (setName s) :: used)
    rw [nameSets, List.map_cons]
    refine ⟨List.nodup_cons.2 ⟨fun h => hunused _ h List.mem_cons_self, hnodup⟩, fun name h => ?_⟩
    rcases List.mem_cons.1 h with rfl | h
    · exact fresh_not_mem (setName_injective s)
    · exact fun hused => hunused name h (.tail _ hused)

/-- A set that is listed once has the name that stands beside it. -/
theorem nameOf_eq {names : List (OrdSet String × String)} {s : OrdSet String} {name : String}
    (hnodup : (names.map Prod.fst).Nodup) (h : (s, name) ∈ names) : nameOf names s = name := by
  induction names with
  | nil => cases h
  | cons e names ih =>
    rw [List.map_cons, List.nodup_cons] at hnodup
    rw [nameOf, List.find?_cons]
    rcases List.mem_cons.1 h with rfl | h
    · simp
    · have hne : e.1 ≠ s := fun heq => hnodup.1 (heq ▸ List.mem_map_of_mem h)
      rw [decide_eq_false hne]
      exact ih hnodup.2 h

/-- The names of different sets differ. -/
theorem nameOf_injective {sets : List (OrdSet String)} (hsets : sets.Nodup) {s t : OrdSet String}
    (hs : s ∈ sets) (ht : t ∈ sets)
    (h : nameOf (nameSets [] sets) s = nameOf (nameSets [] sets) t) : s = t := by
  have hentry : ∀ s ∈ sets, (s, nameOf (nameSets [] sets) s) ∈ nameSets [] sets := by
    intro s hs
    rw [← map_fst_nameSets [] sets, List.mem_map] at hs
    obtain ⟨⟨s, name⟩, hmem, rfl⟩ := hs
    rw [nameOf_eq (by rw [map_fst_nameSets]; exact hsets) hmem]
    exact hmem
  have hinj := List.inj_on_of_nodup_map (nodup_nameSets [] sets).1 (hentry s hs) (hentry t ht) h
  exact congrArg Prod.fst hinj

theorem nameSets_eq {sets : List (OrdSet String)} (hsets : sets.Nodup) :
    nameSets [] sets = sets.map fun s => (s, nameOf (nameSets [] sets) s) := by
  have hnodup : ((nameSets [] sets).map Prod.fst).Nodup := by
    rw [map_fst_nameSets]
    exact hsets
  calc nameSets [] sets
      = (nameSets [] sets).map fun e => (e.1, nameOf (nameSets [] sets) e.1) := by
        refine (List.map_id _).symm.trans (List.map_congr_left fun e he => ?_)
        rw [nameOf_eq hnodup he]
        rfl
    _ = ((nameSets [] sets).map Prod.fst).map
          fun s => (s, nameOf (nameSets [] sets) s) := by
        rw [List.map_map]
        rfl
    _ = sets.map fun s => (s, nameOf (nameSets [] sets) s) := by rw [map_fst_nameSets]

/-! ## The sets -/

/-- The sets of states that words lead to, with what they recognise. -/
def subsetSystem (a : Automaton) (priority : List String) : SetSystem String where
  alphabet := a.alphabet
  start := a.startSet
  next := a.step
  isFinal := fun s => !(a.finalsIn s).isEmpty
  token? := a.tokenOfSet priority
  sets := a.reachableSets
  name := nameOf (nameSets [] a.reachableSets)

theorem nodup_reachableSets : a.reachableSets.Nodup := nodup_explore

/-- The subset construction is the automaton of the sets that words can lead to. -/
theorem determinize_eq (a : Automaton) (priority : List String) :
    a.determinize priority = (a.subsetSystem priority).automaton := by
  have hnames := nameSets_eq (nodup_reachableSets (a := a))
  rw [determinize, SetSystem.automaton, SetSystem.finals, SetSystem.moves, subsetSystem]
  dsimp only
  generalize nameSets [] a.reachableSets = names at hnames ⊢
  generalize nameOf names = name at hnames ⊢
  subst hnames
  rw [List.filter_map, List.map_map, List.map_map, List.filterMap_map, List.flatMap_map]
  rfl

theorem mem_startSet_initial : a.initial ∈ a.startSet :=
  mem_closure.2 ⟨_, List.mem_singleton_self _, .refl _⟩

/-- The sets that reading a character leads to from a set. -/
def nextSets (a : Automaton) (current : OrdSet String) : List (OrdSet String) :=
  (a.alphabet.toList.map (a.step current)).filter fun next => !next.isEmpty

theorem atMost_reachable (ha : a.SelfContained) :
    AtMost (subsetCount a.states.size) (Reachable a.nextSets [a.startSet]) := by
  refine atMost_subsets a.states.toList fun s hs => ?_
  refine hs.induction (p := fun s => ∀ t ∈ s, t ∈ a.states) ?_ ?_
  · intro s hs t ht
    rw [List.mem_singleton.1 hs] at ht
    obtain ⟨r, hr, hpath⟩ := mem_closure.1 ht
    rw [List.mem_singleton.1 hr] at hpath
    exact ha.mem_of_path ha.initial_mem hpath
  · intro s s' hs hs' t ht
    obtain ⟨c, -, rfl⟩ := List.mem_map.1 (List.mem_filter.1 hs').1
    obtain ⟨r, hr, u, hu, hpath⟩ := mem_step.1 ht
    exact ha.mem_of_path (ha.mem_of_mem_targets hu).2 hpath

theorem mem_reachableSets (ha : a.SelfContained) {s : OrdSet String} :
    s ∈ a.reachableSets ↔ Reachable a.nextSets [a.startSet] s :=
  mem_explore (atMost_reachable ha)

/-- The worklist of sets comes to its end. -/
theorem finishes_reachableSets (ha : a.SelfContained) :
    Finishes a.nextSets [] [a.startSet] a.reachableSets :=
  finishes_explore (atMost_reachable ha)

theorem proper_subsetSystem (ha : a.SelfContained) : (a.subsetSystem priority).Proper where
  start_mem := (mem_reachableSets ha).2 (.of_mem (List.mem_singleton_self _))
  start_nonempty := ⟨_, mem_startSet_initial⟩
  next_mem := by
    intro s hs c hsome
    obtain ⟨t, ht⟩ := hsome
    obtain ⟨r, -, u, hu, -⟩ := mem_step.1 ht
    refine (mem_reachableSets ha).2 (((mem_reachableSets ha).1 hs).step ?_)
    refine List.mem_filter.2 ⟨List.mem_map_of_mem (ha.mem_alphabet hu), ?_⟩
    rw [Bool.not_eq_true']
    exact OrdSet.isEmpty_eq_false_iff.2 ⟨t, ht⟩
  mem_alphabet := by
    intro s c h
    obtain ⟨t, ht⟩ := h
    obtain ⟨r, -, u, hu, -⟩ := mem_step.1 ht
    exact ha.mem_alphabet hu
  name_inj := fun s hs t ht h => nameOf_injective nodup_reachableSets hs ht h
  next_empty := by
    intro c x hx
    obtain ⟨r, hr, -⟩ := mem_step.1 hx
    exact OrdSet.not_mem_empty hr
  isFinal_empty := rfl

/-! ## Verdicts -/

theorem wellFormed_determinize (ha : a.SelfContained) : (a.determinize priority).WellFormed := by
  rw [determinize_eq]
  exact SetSystem.wellFormed_automaton (proper_subsetSystem ha)

theorem isDeterministic_determinize (ha : a.SelfContained) :
    (a.determinize priority).isDeterministic = true := by
  rw [determinize_eq]
  exact SetSystem.isDeterministic_automaton (proper_subsetSystem ha)

/-- **The subset construction accepts the same words.** -/
theorem accepts_determinize (ha : a.SelfContained) {word : String} :
    (a.determinize priority).accepts word = a.accepts word := by
  rw [determinize_eq, SetSystem.accepts_automaton (proper_subsetSystem ha)]
  rfl

/-- **The verdict on an accepted word is the preferred token** of the final states that the
word leads to. -/
theorem token_determinize (ha : a.SelfContained) {word : String} (h : a.accepts word = true) :
    ((a.determinize priority).run word).token =
      a.tokenOfSet priority (a.reached word.toList) := by
  rw [determinize_eq, SetSystem.token_automaton (proper_subsetSystem ha) h]
  rfl

/-! ## Preferred tokens -/

theorem tokenBefore_iff {t u : String} :
    tokenBefore priority t u = true ↔
      priority.idxOf t < priority.idxOf u ∨ priority.idxOf t = priority.idxOf u ∧ t < u := by
  simp [tokenBefore]

theorem tokenBefore_trans {t u v : String} (h : tokenBefore priority t u = true)
    (h' : tokenBefore priority u v = true) : tokenBefore priority t v = true := by
  rw [tokenBefore_iff] at h h' ⊢
  rcases h with h | ⟨e, h⟩ <;> rcases h' with h' | ⟨e', h'⟩
  · exact .inl (Nat.lt_trans h h')
  · exact .inl (e' ▸ h)
  · exact .inl (e ▸ h')
  · exact .inr ⟨e.trans e', StrictTotal.lt_trans h h'⟩

theorem tokenBefore_irrefl (t : String) : ¬ tokenBefore priority t t = true := by
  rw [tokenBefore_iff, not_or]
  exact ⟨Nat.lt_irrefl _, fun h => StrictTotal.lt_irrefl _ h.2⟩

theorem tokenBefore_trichotomy (t u : String) :
    tokenBefore priority t u = true ∨ t = u ∨ tokenBefore priority u t = true := by
  rw [tokenBefore_iff, tokenBefore_iff]
  rcases Nat.lt_trichotomy (priority.idxOf t) (priority.idxOf u) with h | h | h
  · exact .inl (.inl h)
  · rcases StrictTotal.lt_trichotomy t u with h' | h' | h'
    · exact .inl (.inr ⟨h, h'⟩)
    · exact .inr (.inl h')
    · exact .inr (.inr (.inr ⟨h.symm, h'⟩))
  · exact .inr (.inr (.inl h))

/-- What does not come before `u` does not come before anything in front of `u`. -/
theorem not_tokenBefore_trans {t u v : String} (h : ¬ tokenBefore priority u t = true)
    (h' : ¬ tokenBefore priority v u = true) : ¬ tokenBefore priority v t = true := by
  intro hvt
  have htrichotomy : tokenBefore priority t u = true ∨ t = u ∨ tokenBefore priority u t = true :=
    tokenBefore_trichotomy t u
  rcases htrichotomy with htu | rfl | hut
  · exact h' (tokenBefore_trans hvt htu)
  · exact h' hvt
  · exact h hut

/-- No token of the list comes before the one that is left in the end. -/
theorem foldl_preferred {best t : String} {rest : List String}
    (h : rest.foldl (fun best u => if tokenBefore priority u best then u else best) best = t) :
    t ∈ best :: rest ∧ ∀ u ∈ best :: rest, ¬ tokenBefore priority u t = true := by
  induction rest generalizing best with
  | nil =>
    obtain rfl : best = t := h
    refine ⟨List.mem_cons_self, fun u hu => ?_⟩
    rw [List.mem_singleton.1 hu]
    exact tokenBefore_irrefl best
  | cons v rest ih =>
    rw [List.foldl_cons] at h
    -- Whichever of `best` and `v` is kept, the other does not come before it.
    split at h
    · next hv =>
      obtain ⟨hmem, hleast⟩ := ih h
      refine ⟨.tail _ hmem, fun u hu => ?_⟩
      rcases List.mem_cons.1 hu with rfl | hu
      · have hbest : ¬ tokenBefore priority u v = true :=
          fun huv => tokenBefore_irrefl u (tokenBefore_trans huv hv)
        exact not_tokenBefore_trans (hleast v List.mem_cons_self) hbest
      · exact hleast u hu
    · next hv =>
      obtain ⟨hmem, hleast⟩ := ih h
      refine ⟨?_, fun u hu => ?_⟩
      · rcases List.mem_cons.1 hmem with rfl | hmem
        · exact List.mem_cons_self
        · exact .tail _ (.tail _ hmem)
      · rcases List.mem_cons.1 hu with rfl | hu
        · exact hleast u List.mem_cons_self
        · rcases List.mem_cons.1 hu with rfl | hu
          · exact not_tokenBefore_trans (hleast best List.mem_cons_self) hv
          · exact hleast u (.tail _ hu)

/-- The preferred token is one of the list, and none of the list comes before it. -/
theorem preferredToken_eq_some {tokens : List String} {t : String}
    (h : preferredToken priority tokens = some t) :
    t ∈ tokens ∧ ∀ u ∈ tokens, ¬ tokenBefore priority u t = true := by
  cases tokens with
  | nil => cases h
  | cons best rest => exact foldl_preferred (Option.some.inj h)

theorem preferredToken_eq_none {tokens : List String} :
    preferredToken priority tokens = none ↔ tokens = [] := by
  cases tokens with
  | nil => exact iff_of_true rfl rfl
  | cons best rest =>
    unfold preferredToken
    simp

/-- **The preferred token is the first one in the order of priority**, if all are listed there. -/
theorem preferredToken_eq_find? {tokens : List String} (h : ∀ t ∈ tokens, t ∈ priority) :
    preferredToken priority tokens = priority.find? fun t => decide (t ∈ tokens) := by
  cases hpreferred : preferredToken priority tokens with
  | none =>
    rw [preferredToken_eq_none.1 hpreferred, eq_comm, List.find?_eq_none]
    exact fun t _ => by rw [decide_eq_true_eq]; exact List.not_mem_nil
  | some t =>
    obtain ⟨ht, hleast⟩ := preferredToken_eq_some hpreferred
    obtain ⟨front, rest, hpriority, hnot⟩ := List.eq_append_cons_of_mem (h t ht)
    rw [eq_comm, List.find?_eq_some_iff_append]
    refine ⟨decide_eq_true ht, front, rest, hpriority, fun u hu => ?_⟩
    rw [Bool.not_eq_true', decide_eq_false_iff_not]
    intro hmem
    have hu' : priority.idxOf u < front.length := by
      rw [hpriority, List.idxOf_append_of_mem hu]
      exact List.idxOf_lt_length_of_mem hu
    have ht' : priority.idxOf t = front.length := by
      rw [hpriority, List.idxOf_append_of_notMem hnot, List.idxOf_cons_self, Nat.add_zero]
    exact hleast u hmem (tokenBefore_iff.2 (.inl (by omega)))

theorem not_tokenBefore_iff {t u : String} :
    ¬ tokenBefore priority u t = true ↔
      priority.idxOf t < priority.idxOf u ∨ priority.idxOf t = priority.idxOf u ∧ t ≤ u := by
  rw [tokenBefore_iff, not_or, not_and, Nat.not_lt, Nat.le_iff_lt_or_eq]
  constructor
  · intro h
    obtain ⟨hlt | heq, hle⟩ := h
    · exact .inl hlt
    · exact .inr ⟨heq, String.not_lt.1 (hle heq.symm)⟩
  · intro h
    rcases h with hlt | ⟨heq, hle⟩
    · exact ⟨.inl hlt, fun heq => absurd heq (Nat.ne_of_gt hlt)⟩
    · exact ⟨.inr heq, fun _ => String.not_lt.2 hle⟩

/-- The preferred token is the only one that none of the list comes before. -/
theorem preferredToken_eq_some_iff {tokens : List String} {t : String} :
    preferredToken priority tokens = some t ↔
      t ∈ tokens ∧ ∀ u ∈ tokens, ¬ tokenBefore priority u t = true := by
  refine ⟨preferredToken_eq_some, fun h => ?_⟩
  obtain ⟨ht, hleast⟩ := h
  cases hpreferred : preferredToken priority tokens with
  | none =>
    rw [preferredToken_eq_none.1 hpreferred] at ht
    cases ht
  | some v =>
    obtain ⟨hv, hleast'⟩ := preferredToken_eq_some hpreferred
    rcases tokenBefore_trichotomy v t with hvt | rfl | htv
    · exact absurd hvt (hleast v hv)
    · rfl
    · exact absurd htv (hleast' t ht)

/-! ## The construction as a whole -/

theorem accepts_of_recognizes {word t : String} (h : a.Recognizes word.toList t) :
    a.accepts word = true := by
  obtain ⟨f, hf, hpath, -⟩ := h
  exact accepts_iff.2 ⟨f, hf, hpath⟩

/-- The token of any word is the preferred one among those that it is recognised as. -/
theorem token_run_determinize (ha : a.SelfContained) (word : String) :
    ((a.determinize priority).run word).token =
      a.tokenOfSet priority (a.reached word.toList) := by
  cases hacc : a.accepts word with
  | true => exact token_determinize ha hacc
  | false =>
    rw [run_of_not_accepts ((accepts_determinize ha).trans hacc), eq_comm, tokenOfSet,
      preferredToken_eq_none, List.eq_nil_iff_forall_not_mem]
    intro t ht
    rw [accepts_of_recognizes (mem_tokens_iff.1 ht)] at hacc
    cases hacc

/-- **The subset construction ends and gives a deterministic automaton with the same verdicts**,
where of all tokens that a word is recognised as the least one counts: the one that is listed
first in the order of priority, and among those that are not listed the first by name. -/
theorem determinize_spec (ha : a.SelfContained) (priority : List String) :
    Finishes a.nextSets [] [a.startSet] a.reachableSets ∧
      (a.determinize priority).isDeterministic = true ∧
      ∀ word : String, (a.determinize priority).accepts word = a.accepts word ∧
        (∀ t, ((a.determinize priority).run word).token = some t ↔
          a.Recognizes word.toList t ∧ ∀ u, a.Recognizes word.toList u →
            priority.idxOf t < priority.idxOf u ∨
              priority.idxOf t = priority.idxOf u ∧ t ≤ u) ∧
        (((a.determinize priority).run word).token = none ↔
          ∀ t, ¬ a.Recognizes word.toList t) := by
  refine ⟨finishes_reachableSets ha, isDeterministic_determinize ha, fun word => ?_⟩
  refine ⟨accepts_determinize ha, fun t => ?_, ?_⟩
  · rw [token_run_determinize ha, tokenOfSet, preferredToken_eq_some_iff]
    simp only [mem_tokens_iff, not_tokenBefore_iff]
  · rw [token_run_determinize ha, tokenOfSet, preferredToken_eq_none,
      List.eq_nil_iff_forall_not_mem]
    simp only [mem_tokens_iff]

/-- The word `0` leads to `x` and `y` together and `1` to `x_y`, so two sets spell one name. The
word `01` leads to two final states whose tokens have no place in the order of priority. -/
def clashing : Automaton :=
  build "i"
    [("i", .epsilon, "j"), ("j", .symbol '0', "x"), ("j", .symbol '0', "y"),
      ("i", .symbol '1', "x_y"), ("y", .symbol '1', "z"), ("z", .epsilon, "x")]
    [("x", some "LOW"), ("y", some "HIGH"), ("z", some "ALSO"), ("x_y", none)]

theorem determinize_spec_clashing :
    clashing.SelfContained ∧
      Finishes clashing.nextSets [] [clashing.startSet] clashing.reachableSets ∧
      (clashing.determinize ["HIGH"]).isDeterministic = true ∧
      (clashing.run "0").token = some "LOW" ∧
      (clashing.determinize ["HIGH"]).accepts "1" = true ∧
      ["", "0", "1", "01"].map (fun word => ((clashing.determinize ["HIGH"]).run word).token) =
        [none, some "HIGH", none, some "ALSO"] := by
  have hself : clashing.SelfContained := selfContained_build _ _ _
  obtain ⟨hends, hdet, hverdicts⟩ := determinize_spec hself ["HIGH"]
  obtain ⟨haccepts, -, -⟩ := hverdicts "1"
  refine ⟨hself, hends, hdet, by decide +kernel, haccepts.trans (by decide +kernel), ?_⟩
  decide +kernel

end Frontend.Automaton
