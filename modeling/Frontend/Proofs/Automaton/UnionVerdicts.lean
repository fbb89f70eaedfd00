import Frontend.Proofs.Automaton.Renaming
import Frontend.Proofs.Automaton.Unions
import Frontend.Proofs.Automaton.WellFormedness

/-!
# What a union says of a word

The names that a union gives are the first free ones: a state of the second automaton that shares
its name with one of the first is marked until the name is not taken, by states that were there
before or by names given to states before it (`firstFree_unionName`), and the initial state is
called by the first candidate that no state is called by (`firstFree_unionInitial`). So the
searches come to an end whatever the states are called, and no two states are mixed up: there are as
many as in both, and one more (`size_states_union`).

A word that one of the two rejects has the verdict of the other one. For the first automaton this
holds as it stands (`run_union_left`): its final states keep their names and so their order, in
which the verdict looks for a token. The new names of the second automaton come in another order,
so there it has to be deterministic (`run_union_right`).
-/

namespace Frontend.Automaton

variable {a b : Automaton} {s t : String} {word : String}

/-! ## The names -/

/-- A state that occurs in `own` gets the first name that neither was taken before nor has been
given to a state before it. -/
theorem separateNames_firstFree {own : OrdSet String} {taken ss : List String} {name : String}
    {before after : List (String × String)} (hss : ∀ r ∈ ss, r ∈ taken) (hs : s ∈ own)
    (h : separateNames own taken ss = before ++ (s, name) :: after) :
    FirstFree (fun x => x ∈ taken ∨ x ∈ before.map Prod.snd) (fun k => repeated k "af2-" ++ s)
      name := by
  induction ss generalizing taken before with
  | nil => cases before <;> cases h
  | cons r ss ih =>
    have hss' : ∀ r ∈ ss, r ∈ taken := fun r hr => hss r (.tail _ hr)
    unfold separateNames at h
    split at h
    · cases before with
      | nil =>
        obtain ⟨heq, -⟩ := List.cons.inj h
        obtain ⟨rfl, rfl⟩ := Prod.mk.inj heq
        exact (firstFree_fresh (repeated_append_injective r (by decide))).congr (by simp)
      | cons e before =>
        obtain ⟨rfl, htail⟩ := List.cons.inj h
        refine (ih (fun r hr => .tail _ (hss' r hr)) htail).congr fun x => ?_
        rw [List.map_cons, List.mem_cons, List.mem_cons, or_assoc, or_left_comm]
    · next hr =>
      cases before with
      | nil =>
        obtain ⟨heq, -⟩ := List.cons.inj h
        obtain ⟨rfl, rfl⟩ := Prod.mk.inj heq
        exact absurd hs hr
      | cons e before =>
        -- A state that keeps its name was there before, so its name is taken already.
        obtain ⟨rfl, htail⟩ := List.cons.inj h
        refine (ih hss' htail).congr fun x => ?_
        refine ⟨Or.imp_right (List.mem_cons_of_mem _), fun hx => ?_⟩
        rcases hx with hx | hx
        · exact .inl hx
        · rcases List.mem_cons.1 hx with rfl | hx
          · exact .inl (hss _ List.mem_cons_self)
          · exact .inr hx

/-- A state that does not occur in `own` keeps its name. -/
theorem eq_of_mem_separateNames {own : OrdSet String} {taken ss : List String} {name : String}
    (hs : ¬ s ∈ own) (h : (s, name) ∈ separateNames own taken ss) : name = s := by
  induction ss generalizing taken with
  | nil => cases h
  | cons r ss ih =>
    unfold separateNames at h
    split at h
    · next hr =>
      rcases List.mem_cons.1 h with heq | h
      · exact absurd ((Prod.mk.inj heq).1 ▸ hr) hs
      · exact ih h
    · rcases List.mem_cons.1 h with heq | h
      · obtain ⟨rfl, rfl⟩ := Prod.mk.inj heq
        rfl
      · exact ih h

/-- The new names are given in the order of the old ones. -/
theorem pairwise_unionNames : (a.unionNames b).Pairwise fun e e' => e.1 < e'.1 := by
  rw [← List.pairwise_map, map_fst_unionNames]
  exact b.states.sorted

/-- A state of the second automaton whose name the first one has gets the first name that no state
of the two has and that no state before it has been given. -/
theorem firstFree_unionName (hs : s ∈ b.states) (hown : s ∈ a.states) :
    FirstFree (fun x => x ∈ a.states ∨ x ∈ b.states ∨ ∃ r ∈ b.states, r < s ∧ x = a.unionName b r)
      (fun k => repeated k "af2-" ++ s) (a.unionName b s) := by
  obtain ⟨before, after, hsplit⟩ := List.append_of_mem (unionName_mem_unionNames (a := a) hs)
  refine (separateNames_firstFree (fun r hr => List.mem_append_right _ hr) hown hsplit).congr
    fun x => ?_
  have hsorted := pairwise_unionNames (a := a) (b := b)
  rw [hsplit] at hsorted
  obtain ⟨-, hafter, hbefore⟩ := List.pairwise_append.1 hsorted
  have hmem : x ∈ before.map Prod.snd ↔ ∃ r ∈ b.states, r < s ∧ x = a.unionName b r := by
    constructor
    · intro h
      obtain ⟨⟨r, x⟩, he, rfl⟩ := List.mem_map.1 h
      obtain ⟨hr, hname⟩ := mem_unionNames.1 (hsplit ▸ List.mem_append_left _ he)
      exact ⟨r, hr, hbefore _ he _ List.mem_cons_self, hname⟩
    · intro h
      obtain ⟨r, hr, hlt, rfl⟩ := h
      have he := unionName_mem_unionNames (a := a) hr
      rw [hsplit, List.mem_append] at he
      rcases he with he | he
      · exact List.mem_map_of_mem (f := Prod.snd) he
      · -- The names that are given afterwards are those of states that are not before `s`.
        rcases List.mem_cons.1 he with heq | he
        · exact absurd hlt ((Prod.mk.inj heq).1 ▸ StrictTotal.lt_irrefl r)
        · exact absurd hlt (StrictTotal.lt_asymm (List.rel_of_pairwise_cons hafter he))
  rw [hmem, List.mem_append, ← OrdSet.mem_def, ← OrdSet.mem_def, or_assoc]

theorem unionName_of_not_mem (hs : s ∈ b.states) (hown : ¬ s ∈ a.states) :
    a.unionName b s = s :=
  eq_of_mem_separateNames hown (unionName_mem_unionNames hs)

theorem firstFree_unionInitial :
    FirstFree (fun x => x ∈ a.states ∨ x ∈ b.states ∨ ∃ s ∈ b.states, x = a.unionName b s)
      initialCandidate (a.unionInitial b) := by
  refine (firstFree_fresh initialCandidate_injective).congr fun x => ?_
  have hmem : x ∈ (a.unionNames b).map Prod.snd ↔ ∃ s ∈ b.states, x = a.unionName b s := by
    rw [List.mem_map]
    constructor
    · intro h
      obtain ⟨⟨s, x⟩, he, rfl⟩ := h
      exact ⟨s, mem_unionNames.1 he⟩
    · intro h
      obtain ⟨s, hs, rfl⟩ := h
      exact ⟨_, unionName_mem_unionNames hs, rfl⟩
  rw [List.mem_append, hmem, List.mem_append, ← OrdSet.mem_def, ← OrdSet.mem_def, or_comm, or_assoc]

/-- **A union has as many states as the two together, and one more.** -/
theorem size_states_union (ha : a.WellFormed) (hb : b.WellFormed) :
    (a.union b).states.size = a.states.size + b.states.size + 1 := by
  have hnodup : (a.unionInitial b :: (a.states.toList ++
      b.states.toList.map (a.unionName b))).Nodup := by
    refine List.nodup_cons.2 ⟨fun h => ?_, List.nodup_append.2 ⟨a.states.nodup, ?_, ?_⟩⟩
    · rcases List.mem_append.1 h with h | h
      · exact unionInitial_not_mem_left h
      · obtain ⟨s, hs, heq⟩ := List.mem_map.1 h
        exact unionName_ne_unionInitial hs heq
    · exact b.states.nodup.map_on fun s hs t ht => unionName_inj hs ht
    · intro s hs t ht heq
      obtain ⟨u, hu, rfl⟩ := List.mem_map.1 ht
      exact unionName_not_mem hu (heq ▸ hs)
  rw [OrdSet.size_eq_length hnodup fun t => ?_]
  · rw [List.length_cons, List.length_append, List.length_map]
    rfl
  · rw [mem_states_union ha hb, List.mem_cons, List.mem_append, List.mem_map]
    rfl

/-! ## Verdicts -/

/-- The tokens of the final states that a word leads to. -/
def tokensOf (a : Automaton) (word : String) : OrdSet String :=
  OrdSet.ofList ((a.finalsIn (a.reached word.toList)).filterMap a.tokens.get?)

theorem mem_tokensOf {token : String} :
    token ∈ a.tokensOf word ↔ a.Recognizes word.toList token := by
  rw [tokensOf, OrdSet.mem_ofList, mem_tokens_iff]

theorem tokensOf_union (ha : a.WellFormed) (hb : b.WellFormed) :
    (a.union b).tokensOf word = a.tokensOf word ∪ b.tokensOf word := by
  ext token
  rw [OrdSet.mem_union, mem_tokensOf, mem_tokensOf, mem_tokensOf, recognizes_union ha hb]

/-- A word that the second automaton rejects leads to the final states of the first, under their
names and so in their order. -/
theorem finalsIn_union_left (ha : a.WellFormed) (hb : b.WellFormed) (h : b.accepts word = false) :
    (a.union b).finalsIn ((a.union b).reached word.toList) =
      a.finalsIn (a.reached word.toList) := by
  have heq : ((a.union b).reached word.toList).filter (fun s => decide (s ∈ (a.union b).finals)) =
      (a.reached word.toList).filter fun s => decide (s ∈ a.finals) := by
    ext t
    rw [OrdSet.mem_filter, OrdSet.mem_filter, decide_eq_true_iff, decide_eq_true_iff, mem_reached,
      mem_reached, and_comm, final_union_iff ha hb, and_comm (a := a.Path _ _ _), or_iff_left]
    intro hright
    obtain ⟨u, hu, -⟩ := hright
    exact Bool.eq_false_iff.1 h (accepts_iff.2 ⟨u, hu⟩)
  exact congrArg OrdSet.toList heq

/-- **A word that the second automaton rejects has the verdict of the first.** -/
theorem run_union_left (ha : a.WellFormed) (hb : b.WellFormed) (h : b.accepts word = false) :
    (a.union b).run word = a.run word := by
  have htokens : (a.finalsIn (a.reached word.toList)).filterMap (a.union b).tokens.get? =
      (a.finalsIn (a.reached word.toList)).filterMap a.tokens.get? := by
    refine List.filterMap_congr fun t ht => ?_
    exact get?_tokens_union_left hb (ha.finals_subset t (mem_finalsIn.1 ht).2)
  rw [run, run, verdict, verdict, finalsIn_union_left ha hb h, ← List.head?_filterMap, htokens,
    List.head?_filterMap]

/-- **A word that the first automaton rejects has the verdict of the second**, if that one is
deterministic. -/
theorem run_union_right (ha : a.WellFormed) (hb : b.WellFormed) (h : a.accepts word = false)
    (hdet : b.isDeterministic = true) : (a.union b).run word = b.run word := by
  refine run_eq_of_final_iff (f := a.unionName b) hdet (fun t => ?_) fun u hu =>
    get?_tokens_union_right ha hb (hb.finals_subset u hu)
  rw [final_union_iff ha hb, or_iff_right]
  exact fun ht => Bool.eq_false_iff.1 h (accepts_iff.2 ⟨t, ht⟩)

/-! ## Unions -/

/-- The states of a union are those of both automata and a new one, and every search for a name
ended with the first that was free. -/
structure UnionNamed (a b : Automaton) : Prop where
  kept : ∀ s ∈ b.states, ¬ s ∈ a.states → a.unionName b s = s
  marked : ∀ s ∈ b.states, s ∈ a.states →
    FirstFree (fun x => x ∈ a.states ∨ x ∈ b.states ∨ ∃ r ∈ b.states, r < s ∧ x = a.unionName b r)
      (fun k => repeated k "af2-" ++ s) (a.unionName b s)
  initial :
    FirstFree (fun x => x ∈ a.states ∨ x ∈ b.states ∨ ∃ s ∈ b.states, x = a.unionName b s)
      initialCandidate (a.union b).initial
  states : ∀ t, t ∈ (a.union b).states ↔
    t = (a.union b).initial ∨ t ∈ a.states ∨ ∃ s, s ∈ b.states ∧ a.unionName b s = t

/-- **A union says of a word what the two automata say**, whatever their states are called: it
accepts what one of them accepts, with the tokens of both, and where only one of them accepts it
gives its verdict, the second one provided that it is deterministic. -/
theorem union_spec (ha : a.WellFormed) (hb : b.WellFormed) :
    UnionNamed a b ∧ (a.union b).states.size = a.states.size + b.states.size + 1 ∧
      ∀ word,
        ((a.union b).accepts word = true ↔ a.accepts word = true ∨ b.accepts word = true) ∧
        (a.union b).tokensOf word = a.tokensOf word ∪ b.tokensOf word ∧
        (b.accepts word = false → (a.union b).run word = a.run word) ∧
        (a.accepts word = false → b.isDeterministic = true → (a.union b).run word = b.run word) := by
  refine ⟨⟨fun s => unionName_of_not_mem, fun s => firstFree_unionName, firstFree_unionInitial,
    fun t => mem_states_union ha hb⟩, size_states_union ha hb, fun word => ?_⟩
  exact ⟨accepts_union ha hb, tokensOf_union ha hb, run_union_left ha hb, run_union_right ha hb⟩

/-- States called like a new initial state, and like a marked one. -/
def onMarks : Automaton :=
  build "qi" [("qi", .symbol 'a', "x"), ("x", .symbol 'a', "af2-x")]
    [("x", some "A"), ("af2-x", some "B")]

/-- The same names, and that of the next initial state. -/
def onSameMarks : Automaton :=
  build "x" [("x", .symbol 'b', "af2-x"), ("af2-x", .symbol 'a', "qi1")] [("qi1", some "C")]

/-- One state is marked twice, and another three times since that name has been given by then. -/
theorem union_spec_onMarks :
    UnionNamed onMarks onSameMarks ∧ onMarks.unionName onSameMarks "af2-x" = "af2-af2-x" ∧
      onMarks.unionName onSameMarks "x" = "af2-af2-af2-x" ∧
      (onMarks.union onSameMarks).initial = "qi2" ∧
      (onMarks.union onSameMarks).states.size = 7 ∧
      (onMarks.union onSameMarks).run "aa" = ⟨true, some "B"⟩ ∧
      (onMarks.union onSameMarks).run "ba" = ⟨true, some "C"⟩ := by
  have hmarks : onMarks.WellFormed := wellFormed_build _ _ _
  have hsameMarks : onSameMarks.WellFormed := wellFormed_build _ _ _
  obtain ⟨hnamed, hsize, hwords⟩ := union_spec hmarks hsameMarks
  obtain ⟨-, -, hleft, -⟩ := hwords "aa"
  obtain ⟨-, -, -, hright⟩ := hwords "ba"
  refine ⟨hnamed, by decide +kernel, by decide +kernel, by decide +kernel, hsize, ?_, ?_⟩
  · exact (hleft (by decide +kernel)).trans (by decide +kernel)
  · exact (hright (by decide +kernel) (by decide +kernel)).trans (by decide +kernel)

end Frontend.Automaton
