import Frontend.Proofs.Automaton.Correspondence
import Frontend.Proofs.Automaton.Unions
import Frontend.Proofs.Automaton.WellFormedness

/-!
# The order of a union does not matter

The names of the states of a union depend on the order in which its members are united. But
whether two words reach the same set of states does not: they do so if they reach the same set in
every member, and both or neither are empty, as the new initial states are reached by the empty
word only (`reached_foldl_union_eq_iff`). What the sets recognise does not depend on the order
either, so subset constructions of the union have one canonical form
(`canonical_unionAll_perm`).
-/

namespace Frontend.Automaton

variable {a b all all' : Automaton} {as bs rest : List Automaton} {s : String} {w w' : List Char}

/-! ## Two automata -/

/-- A union reaches its initial state by the empty word, and else what the two reach. -/
theorem mem_reached_union (ha : a.WellFormed) (hb : b.WellFormed) :
    s ∈ (a.union b).reached w ↔ (w = [] ∧ s = a.unionInitial b) ∨ s ∈ a.reached w ∨
      ∃ u, u ∈ b.reached w ∧ a.unionName b u = s := by
  have hinitial : (a.union b).initial = a.unionInitial b := rfl
  simp only [mem_reached, hinitial]
  exact path_initial_union_iff ha hb

theorem reached_union_eq_iff (ha : a.WellFormed) (hb : b.WellFormed) :
    (a.union b).reached w = (a.union b).reached w' ↔
      (w = [] ↔ w' = []) ∧ a.reached w = a.reached w' ∧ b.reached w = b.reached w' := by
  have hstates : ∀ {a : Automaton} {s w}, a.WellFormed → s ∈ a.reached w → s ∈ a.states :=
    fun ha hs => ha.mem_of_path ha.initial_mem (mem_reached.1 hs)
  -- The parts of a set are told apart by the names: the initial state, and both sides.
  have hinitial : ∀ {w}, a.unionInitial b ∈ (a.union b).reached w ↔ w = [] := by
    intro w
    rw [mem_reached_union ha hb]
    constructor
    · intro h
      rcases h with ⟨hw, -⟩ | h | ⟨u, hu, hname⟩
      · exact hw
      · exact absurd (hstates ha h) unionInitial_not_mem_left
      · exact absurd hname (unionName_ne_unionInitial (hstates hb hu))
    · exact fun hw => .inl ⟨hw, rfl⟩
  have hleft : ∀ {s w}, s ∈ a.states → (s ∈ (a.union b).reached w ↔ s ∈ a.reached w) := by
    intro s w hs
    rw [mem_reached_union ha hb]
    constructor
    · intro h
      rcases h with ⟨-, rfl⟩ | h | ⟨u, hu, rfl⟩
      · exact absurd hs unionInitial_not_mem_left
      · exact h
      · exact absurd hs (unionName_not_mem (hstates hb hu))
    · exact fun h => .inr (.inl h)
  have hright : ∀ {s w}, s ∈ b.states →
      (a.unionName b s ∈ (a.union b).reached w ↔ s ∈ b.reached w) := by
    intro s w hs
    rw [mem_reached_union ha hb]
    constructor
    · intro h
      rcases h with ⟨-, hname⟩ | h | ⟨u, hu, hname⟩
      · exact absurd hname (unionName_ne_unionInitial hs)
      · exact absurd (hstates ha h) (unionName_not_mem hs)
      · rwa [← unionName_inj (hstates hb hu) hs hname]
    · exact fun h => .inr (.inr ⟨s, h, rfl⟩)
  constructor
  · intro heq
    refine ⟨?_, ?_, ?_⟩
    · rw [← hinitial, heq, hinitial]
    · ext s
      constructor
      · exact fun hs => (hleft (hstates ha hs)).1 (heq ▸ (hleft (hstates ha hs)).2 hs)
      · exact fun hs => (hleft (hstates ha hs)).1 (heq ▸ (hleft (hstates ha hs)).2 hs)
    · ext s
      constructor
      · exact fun hs => (hright (hstates hb hs)).1 (heq ▸ (hright (hstates hb hs)).2 hs)
      · exact fun hs => (hright (hstates hb hs)).1 (heq ▸ (hright (hstates hb hs)).2 hs)
  · intro h
    obtain ⟨hw, hleft, hright⟩ := h
    ext s
    rw [mem_reached_union ha hb, mem_reached_union ha hb, hw, hleft, hright]

theorem exists_mem_reached_union (ha : a.WellFormed) (hb : b.WellFormed) :
    (∃ s, s ∈ (a.union b).reached w) ↔ (∃ s, s ∈ a.reached w) ∨ ∃ s, s ∈ b.reached w := by
  simp only [mem_reached_union ha hb]
  constructor
  · intro h
    obtain ⟨s, ⟨rfl, -⟩ | hs | ⟨u, hu, -⟩⟩ := h
    · exact .inl ⟨a.initial, mem_reached.2 (.refl _)⟩
    · exact .inl ⟨s, hs⟩
    · exact .inr ⟨u, hu⟩
  · intro h
    rcases h with ⟨s, hs⟩ | ⟨s, hs⟩
    · exact ⟨s, .inr (.inl hs)⟩
    · exact ⟨_, .inr (.inr ⟨s, hs, rfl⟩)⟩

/-! ## Lists -/

/-- Two words reach the same set in the union of a list if they do so in every member; the union
of two automata or more also tells the empty word from the others. -/
theorem reached_foldl_union_eq_iff (ha : a.WellFormed) (hrest : ∀ b ∈ rest, b.WellFormed) :
    (rest.foldl union a).reached w = (rest.foldl union a).reached w' ↔
      (rest ≠ [] → (w = [] ↔ w' = [])) ∧ ∀ b ∈ a :: rest, b.reached w = b.reached w' := by
  induction rest generalizing a with
  | nil => simp
  | cons b rest ih =>
    have hb := hrest b List.mem_cons_self
    rw [List.foldl_cons, ih (wellFormed_union ha hb) fun c hc => hrest c (.tail _ hc),
      List.forall_mem_cons, reached_union_eq_iff ha hb, List.forall_mem_cons, List.forall_mem_cons]
    constructor
    · intro h
      obtain ⟨-, ⟨hw, hleft, hright⟩, hall⟩ := h
      exact ⟨fun _ => hw, hleft, hright, hall⟩
    · intro h
      obtain ⟨hw, hleft, hright, hall⟩ := h
      exact ⟨fun _ => hw (List.cons_ne_nil _ _), ⟨hw (List.cons_ne_nil _ _), hleft, hright⟩, hall⟩

theorem exists_mem_reached_foldl_union (ha : a.WellFormed) (hrest : ∀ b ∈ rest, b.WellFormed) :
    (∃ s, s ∈ (rest.foldl union a).reached w) ↔ ∃ b ∈ a :: rest, ∃ s, s ∈ b.reached w := by
  induction rest generalizing a with
  | nil => simp
  | cons b rest ih =>
    have hb := hrest b List.mem_cons_self
    rw [List.foldl_cons, ih (wellFormed_union ha hb) fun c hc => hrest c (.tail _ hc)]
    simp only [List.exists_mem_cons_iff, exists_mem_reached_union ha hb, or_assoc]

/-- What subset constructions of the union of a list depend on, said about the members in a way
that does not depend on their order. -/
theorem sameSets_unionAll_perm (hperm : as.Perm bs) (has : ∀ a ∈ as, a.WellFormed)
    (hall : unionAll? as = some all) (hall' : unionAll? bs = some all') : all.SameSets all' := by
  cases as with
  | nil => cases hall
  | cons a rest =>
    cases bs with
    | nil => cases hall'
    | cons b rest' =>
      obtain rfl := Option.some.inj hall
      obtain rfl := Option.some.inj hall'
      have ha := has a List.mem_cons_self
      have hrest : ∀ c ∈ rest, c.WellFormed := fun c hc => has c (.tail _ hc)
      have hb := has b (hperm.mem_iff.2 List.mem_cons_self)
      have hrest' : ∀ c ∈ rest', c.WellFormed := fun c hc => has c (hperm.mem_iff.2 (.tail _ hc))
      have hexists : ∀ p : Automaton → Prop, (∃ c ∈ a :: rest, p c) ↔ ∃ c ∈ b :: rest', p c :=
        fun p => exists_congr fun c => and_congr_left fun _ => hperm.mem_iff
      have hforall : ∀ p : Automaton → Prop, (∀ c ∈ a :: rest, p c) ↔ ∀ c ∈ b :: rest', p c :=
        fun p => forall_congr' fun c => imp_congr_left hperm.mem_iff
      have hnil : rest = [] ↔ rest' = [] := by
        have hlength := hperm.length_eq
        rw [List.length_cons, List.length_cons] at hlength
        rw [← List.length_eq_zero_iff, ← List.length_eq_zero_iff, Nat.succ.inj hlength]
      obtain ⟨-, haccepts, hrecognizes⟩ := foldl_union ha hrest
      obtain ⟨-, haccepts', hrecognizes'⟩ := foldl_union hb hrest'
      exact {
        alphabet := by
          ext c
          rw [mem_alphabet_foldl_union, mem_alphabet_foldl_union]
          exact hexists _
        reached_eq_iff := by
          intro w w'
          rw [reached_foldl_union_eq_iff ha hrest, reached_foldl_union_eq_iff hb hrest', hforall,
            Ne, Ne, hnil]
        reached_some_iff := by
          intro w
          rw [exists_mem_reached_foldl_union ha hrest, exists_mem_reached_foldl_union hb hrest']
          exact hexists _
        accepts_iff := by
          intro word
          rw [haccepts, haccepts']
          exact hexists _
        recognizes_iff := by
          intro w token
          rw [hrecognizes, hrecognizes']
          exact hexists _ }

/-- **Subset constructions of a union have one canonical form, in whatever order its members are
united.** -/
theorem canonical_unionAll_perm (hperm : as.Perm bs) (hsome : as ≠ [])
    (has : ∀ a ∈ as, a.WellFormed) (priority : List String) :
    ∃ all all', unionAll? as = some all ∧ unionAll? bs = some all' ∧
      (all.determinize priority).canonical = (all'.determinize priority).canonical := by
  have hexists : ∀ {as : List Automaton}, as ≠ [] → ∃ all, unionAll? as = some all := by
    intro as hsome
    cases as with
    | nil => exact absurd rfl hsome
    | cons a rest => exact ⟨_, rfl⟩
  have hbs : ∀ b ∈ bs, b.WellFormed := fun b hb => has b (hperm.mem_iff.2 hb)
  obtain ⟨all, hall⟩ := hexists hsome
  obtain ⟨all', hall'⟩ := hexists fun h => hsome (List.perm_nil.1 (h ▸ hperm))
  have hself : all.SelfContained := (wellFormed_unionAll has hall).selfContained
  have hself' : all'.SelfContained := (wellFormed_unionAll hbs hall').selfContained
  exact ⟨all, all', hall, hall',
    (sameSets_unionAll_perm hperm has hall hall').canonical_determinize_eq hself hself' priority⟩

/-- Automata whose states have each other's names and those that unions give. -/
def sharedNames : List Automaton :=
  [build "qi" [("qi", .symbol 'a', "x"), ("x", .epsilon, "qi")] [("x", some "A")],
    build "x" [("x", .symbol 'a', "af2-x"), ("af2-x", .symbol 'b', "qi")]
      [("af2-x", some "B"), ("qi", some "C")],
    build "x" [("x", .epsilon, "qi1"), ("qi1", .symbol 'b', "qi1")] [("qi1", none)]]

theorem canonical_unionAll_perm_sharedNames :
    ∃ all all', unionAll? sharedNames = some all ∧ unionAll? sharedNames.reverse = some all' ∧
      all.determinize ["B"] ≠ all'.determinize ["B"] ∧
      (all.determinize ["B"]).canonical = (all'.determinize ["B"]).canonical := by
  have has : ∀ a ∈ sharedNames, a.WellFormed := by
    simp only [sharedNames, List.forall_mem_cons]
    exact ⟨wellFormed_build _ _ _, wellFormed_build _ _ _, wellFormed_build _ _ _, nofun⟩
  obtain ⟨all, all', hall, hall', heq⟩ :=
    canonical_unionAll_perm (List.reverse_perm sharedNames).symm (List.cons_ne_nil _ _) has ["B"]
  refine ⟨all, all', hall, hall', ?_, heq⟩
  have hne : (unionAll? sharedNames).map (·.determinize ["B"]) ≠
      (unionAll? sharedNames.reverse).map (·.determinize ["B"]) := by decide +kernel
  rw [hall, hall'] at hne
  exact fun h => hne (congrArg some h)

end Frontend.Automaton
