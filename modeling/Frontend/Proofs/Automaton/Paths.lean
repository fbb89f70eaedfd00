import Frontend.Automaton.Run
import Frontend.Proofs.Exploration
import Frontend.Proofs.Ordered

/-!
# Paths

`Automaton.Path` follows single moves, those that read nothing among them. A run, which keeps
all states at once, finds exactly the states that paths lead to (`mem_reached`), so a word is
accepted if a path leads to a final state (`accepts_iff`). In an automaton that is
self-contained, and so in every well-formed one, paths stay among the states and read its
alphabet.
-/

namespace Frontend.Automaton

open Relation (ReflTransGen)

variable {a : Automaton} {s t u : String} {c : Char} {w v : List Char}

/-- A path leads from one state to another and reads a word on its way. -/
inductive Path (a : Automaton) : String → List Char → String → Prop
  | refl (s : String) : Path a s [] s
  | silent {s t u : String} {w : List Char} (h : t ∈ a.targets s .epsilon)
    (rest : Path a t w u) : Path a s w u
  | read {s t u : String} {c : Char} {w : List Char} (h : t ∈ a.targets s (.symbol c))
    (rest : Path a t w u) : Path a s (c :: w) u

namespace Path

theorem trans (h : a.Path s w t) (h' : a.Path t v u) : a.Path s (w ++ v) u := by
  induction h with
  | refl s => exact h'
  | silent hstep _ ih => exact .silent hstep (ih h')
  | read hstep _ ih => exact .read hstep (ih h')

/-- A path that reads nothing only makes moves that read nothing. -/
theorem nil_iff :
    a.Path s [] t ↔ ReflTransGen (fun s t => t ∈ (a.targets s .epsilon).toList) s t := by
  constructor
  · intro h
    generalize hw : ([] : List Char) = w at h
    induction h with
    | refl s => exact .refl
    | silent hstep _ ih => exact .head hstep (ih hw)
    | read => cases hw
  · intro h
    induction h using ReflTransGen.head_induction_on with
    | refl => exact .refl _
    | head hstep _ ih => exact .silent hstep ih

/-- A path that reads a character makes a move on it, after others that read nothing. -/
theorem cons_iff :
    a.Path s (c :: w) u ↔
      ∃ r t, a.Path s [] r ∧ t ∈ a.targets r (.symbol c) ∧ a.Path t w u := by
  constructor
  · intro h
    generalize hw : c :: w = v at h
    induction h with
    | refl s => cases hw
    | silent hstep _ ih =>
      obtain ⟨r, t, hr, ht, hpath⟩ := ih hw
      exact ⟨r, t, .silent hstep hr, ht, hpath⟩
    | read hstep rest _ =>
      obtain ⟨rfl, rfl⟩ := List.cons.inj hw
      exact ⟨_, _, .refl _, hstep, rest⟩
  · intro h
    obtain ⟨r, t, hr, ht, hpath⟩ := h
    exact hr.trans (.read ht hpath)

/-- A path stands somewhere when it has read the first part of its word. -/
theorem append_iff : a.Path s (w ++ v) u ↔ ∃ t, a.Path s w t ∧ a.Path t v u := by
  refine ⟨fun h => ?_, fun ⟨t, hw, hv⟩ => hw.trans hv⟩
  induction w generalizing s with
  | nil => exact ⟨s, .refl s, h⟩
  | cons c w ih =>
    obtain ⟨r, t, hr, ht, hpath⟩ := cons_iff.1 h
    obtain ⟨t', hw, hv⟩ := ih hpath
    exact ⟨t', cons_iff.2 ⟨r, t, hr, ht, hw⟩, hv⟩

end Path

/-! ## Moves -/

theorem mem_targets_iff {l : Label} :
    t ∈ a.targets s l ↔ ∃ ts, a.transitions.get? ⟨s, l⟩ = some ts ∧ t ∈ ts := by
  rw [targets, OrdMap.getD]
  cases h : a.transitions.get? ⟨s, l⟩ with
  | none => simp
  | some ts => simp

/-- All targets of all moves. -/
def allTargets (a : Automaton) : List String := a.transitions.toList.flatMap fun e => e.2.toList

theorem length_allTargets : a.allTargets.length = a.transitionCount := by
  rw [allTargets, transitionCount, List.length_flatMap]
  induction a.transitions.toList with
  | nil => rfl
  | cons e l ih =>
    rw [List.map_cons, List.sum_cons, ih, List.foldr_cons]
    rfl

theorem mem_allTargets {l : Label} (h : t ∈ a.targets s l) : t ∈ a.allTargets := by
  obtain ⟨ts, hts, ht⟩ := mem_targets_iff.1 h
  exact List.mem_flatMap.2 ⟨_, OrdMap.mem_toList_iff.2 hts, ht⟩

/-! ## Runs follow paths -/

/-- The states that one move of a state that reads nothing leads to. -/
def silent (a : Automaton) (s : String) : List String := (a.targets s .epsilon).toList

/-- Moves that read nothing lead to no more states than those that they begin in and those that
transitions lead to. -/
theorem atMost_silent (ss : List String) :
    AtMost (ss.length + a.transitionCount) (Reachable a.silent ss) := by
  rw [← length_allTargets, ← List.length_append]
  refine atMost_of_mem _ fun t ht => ?_
  refine ht.induction (fun s hs => List.mem_append_left _ hs) fun s t _ ht => ?_
  exact List.mem_append_right _ (mem_allTargets ht)

theorem mem_closure_iff_reachable {ss : List String} :
    t ∈ a.closure ss ↔ Reachable a.silent ss t := by
  rw [closure, OrdSet.mem_ofList]
  exact mem_explore (atMost_silent ss)

/-- A closure holds what moves that read nothing lead to. -/
theorem mem_closure {ss : List String} : t ∈ a.closure ss ↔ ∃ s ∈ ss, a.Path s [] t := by
  rw [mem_closure_iff_reachable]
  exact exists_congr fun s => and_congr_right fun _ => Path.nil_iff.symm

theorem mem_step {current : OrdSet String} :
    t ∈ a.step current c ↔
      ∃ s ∈ current, ∃ u, u ∈ a.targets s (.symbol c) ∧ a.Path u [] t := by
  rw [step, mem_closure]
  constructor
  · intro h
    obtain ⟨u, hu, hpath⟩ := h
    obtain ⟨s, hs, hu⟩ := OrdSet.mem_unions.1 hu
    exact ⟨s, hs, u, hu, hpath⟩
  · intro h
    obtain ⟨s, hs, u, hu, hpath⟩ := h
    exact ⟨u, OrdSet.mem_unions.2 ⟨s, hs, hu⟩, hpath⟩

/-- Reading a word from a set that is closed under moves that read nothing. -/
theorem mem_foldl_step {current : OrdSet String}
    (hclosed : ∀ s ∈ current, ∀ t, a.Path s [] t → t ∈ current) :
    t ∈ w.foldl a.step current ↔ ∃ s ∈ current, a.Path s w t := by
  induction w generalizing current with
  | nil => exact ⟨fun h => ⟨t, h, .refl t⟩, fun ⟨s, hs, h⟩ => hclosed s hs t h⟩
  | cons c w ih =>
    -- A step closes what it gives, so the induction goes on from a closed set.
    have hstep : ∀ s ∈ a.step current c, ∀ t, a.Path s [] t → t ∈ a.step current c := by
      intro s hs t hpath
      obtain ⟨r, hr, u, hu, hus⟩ := mem_step.1 hs
      exact mem_step.2 ⟨r, hr, u, hu, hus.trans hpath⟩
    rw [List.foldl_cons, ih hstep]
    constructor
    · intro h
      obtain ⟨s, hs, hpath⟩ := h
      obtain ⟨r, hr, u, hu, hus⟩ := mem_step.1 hs
      exact ⟨r, hr, .read hu (hus.trans hpath)⟩
    · intro h
      obtain ⟨s, hs, hpath⟩ := h
      obtain ⟨r, u, hsr, hu, hpath⟩ := Path.cons_iff.1 hpath
      exact ⟨u, mem_step.2 ⟨r, hclosed s hs r hsr, u, hu, .refl u⟩, hpath⟩

/-- **A run finds what paths lead to.** -/
theorem mem_reached : t ∈ a.reached w ↔ a.Path a.initial w t := by
  have hclosed : ∀ s ∈ a.startSet, ∀ t, a.Path s [] t → t ∈ a.startSet := by
    intro s hs t hpath
    obtain ⟨r, hr, hrs⟩ := mem_closure.1 hs
    exact mem_closure.2 ⟨r, hr, hrs.trans hpath⟩
  rw [reached, mem_foldl_step hclosed]
  constructor
  · intro h
    obtain ⟨s, hs, hpath⟩ := h
    obtain ⟨r, hr, hrs⟩ := mem_closure.1 hs
    rw [List.mem_singleton.1 hr] at hrs
    exact hrs.trans hpath
  · intro hpath
    exact ⟨a.initial, mem_closure.2 ⟨_, List.mem_singleton_self _, .refl _⟩, hpath⟩

/-! ## Verdicts -/

theorem mem_finalsIn {current : OrdSet String} :
    t ∈ a.finalsIn current ↔ t ∈ current ∧ t ∈ a.finals := by
  rw [finalsIn, List.mem_filter, decide_eq_true_iff]
  rfl

/-- A word is accepted if a path that reads it leads to a final state. -/
theorem accepts_iff {word : String} :
    a.accepts word = true ↔ ∃ t, t ∈ a.finals ∧ a.Path a.initial word.toList t := by
  rw [accepts, run, verdict, Bool.not_eq_true', ← Bool.not_eq_true, List.isEmpty_iff,
    List.eq_nil_iff_forall_not_mem]
  simp only [mem_finalsIn, mem_reached, not_forall, not_not]
  exact exists_congr fun t => and_comm

/-- A path that reads the word leads to a final state that recognises the token. -/
def Recognizes (a : Automaton) (w : List Char) (token : String) : Prop :=
  ∃ t, t ∈ a.finals ∧ a.Path a.initial w t ∧ a.tokens.get? t = some token

/-- The tokens of the final states that a word leads to are those that it is recognised as. -/
theorem mem_tokens_iff {token : String} :
    token ∈ (a.finalsIn (a.reached w)).filterMap a.tokens.get? ↔ a.Recognizes w token := by
  rw [List.mem_filterMap]
  simp only [mem_finalsIn, mem_reached]
  refine exists_congr fun t => ?_
  rw [and_comm (a := a.Path _ _ _), and_assoc]

/-- A word that leads to one final state has the token of this state. -/
theorem run_of_final {word : String} {f : String}
    (h : ∀ t, t ∈ a.finals ∧ a.Path a.initial word.toList t ↔ t = f) :
    a.run word = ⟨true, a.tokens.get? f⟩ := by
  have hfinals : a.finalsIn (a.reached word.toList) = [f] := by
    refine OrdSet.toList_eq_singleton
      (s := (a.reached word.toList).filter fun s => decide (s ∈ a.finals)) fun t => ?_
    rw [OrdSet.mem_filter, decide_eq_true_iff, mem_reached, ← h]
    exact and_comm
  rw [run, verdict, hfinals, List.findSome?_singleton]
  rfl

theorem run_of_not_accepts {word : String} (h : a.accepts word = false) :
    a.run word = ⟨false, none⟩ := by
  have hfinals : a.finalsIn (a.reached word.toList) = [] := by
    rwa [accepts, run, verdict, Bool.not_eq_false', List.isEmpty_iff] at h
  rw [run, verdict, hfinals]
  rfl

/-! ## Paths of automata that are self-contained -/

/-- The initial state, the final states and the ends of all moves are states of the automaton,
and what its moves read is in its alphabet. Runs ask for no more than that: entries that lead
nowhere and tokens of states that are not final do no harm. -/
structure SelfContained (a : Automaton) : Prop where
  initial_mem : a.initial ∈ a.states
  finals_subset : ∀ s, s ∈ a.finals → s ∈ a.states
  mem_of_mem_targets : ∀ {s l t}, t ∈ a.targets s l → s ∈ a.states ∧ t ∈ a.states
  mem_alphabet : ∀ {s c t}, t ∈ a.targets s (.symbol c) → c ∈ a.alphabet

theorem SelfContained.mem_of_path (h : a.SelfContained) (hs : s ∈ a.states)
    (hpath : a.Path s w t) : t ∈ a.states := by
  induction hpath with
  | refl s => exact hs
  | silent hstep _ ih => exact ih (h.mem_of_mem_targets hstep).2
  | read hstep _ ih => exact ih (h.mem_of_mem_targets hstep).2

theorem WellFormed.selfContained (h : a.WellFormed) : a.SelfContained where
  initial_mem := h.initial_mem
  finals_subset := h.finals_subset
  mem_of_mem_targets := by
    intro s l t ht
    obtain ⟨ts, hts, ht⟩ := mem_targets_iff.1 ht
    exact ⟨h.source_mem _ _ hts, h.target_mem _ _ hts t ht⟩
  mem_alphabet := by
    intro s c t ht
    obtain ⟨ts, hts, -⟩ := mem_targets_iff.1 ht
    exact h.symbol_mem _ _ _ hts

theorem WellFormed.mem_of_mem_targets {l : Label} (h : a.WellFormed) (ht : t ∈ a.targets s l) :
    s ∈ a.states ∧ t ∈ a.states :=
  h.selfContained.mem_of_mem_targets ht

theorem WellFormed.mem_of_path (h : a.WellFormed) (hs : s ∈ a.states) (hpath : a.Path s w t) :
    t ∈ a.states :=
  h.selfContained.mem_of_path hs hpath

/-- A character outside the alphabet leads nowhere. -/
theorem WellFormed.mem_alphabet (h : a.WellFormed) (ht : t ∈ a.targets s (.symbol c)) :
    c ∈ a.alphabet :=
  h.selfContained.mem_alphabet ht

/-! ## Automata inside others -/

/-- The states of `a`, under the names that `f` gives them, move in `b` as they do in `a`. -/
def Embeds (a b : Automaton) (f : String → String) : Prop :=
  ∀ s ∈ a.states, ∀ l t, t ∈ b.targets (f s) l ↔ ∃ u ∈ a.targets s l, f u = t

/-- **Paths are carried over and back** by names under which an automaton moves as before. -/
theorem Embeds.path_iff {b : Automaton} {f : String → String} (h : a.Embeds b f)
    (ha : a.SelfContained) (hs : s ∈ a.states) :
    b.Path (f s) w t ↔ ∃ u, a.Path s w u ∧ f u = t := by
  constructor
  · intro hpath
    -- The induction is on the path, so the state it begins in must be a variable.
    generalize hname : f s = s' at hpath
    induction hpath generalizing s with
    | refl s' => exact ⟨s, .refl s, hname⟩
    | silent hstep _ ih =>
      subst hname
      obtain ⟨u, hu, hname⟩ := (h s hs _ _).1 hstep
      obtain ⟨v, hpath, hv⟩ := ih (ha.mem_of_mem_targets hu).2 hname
      exact ⟨v, .silent hu hpath, hv⟩
    | read hstep _ ih =>
      subst hname
      obtain ⟨u, hu, hname⟩ := (h s hs _ _).1 hstep
      obtain ⟨v, hpath, hv⟩ := ih (ha.mem_of_mem_targets hu).2 hname
      exact ⟨v, .read hu hpath, hv⟩
  · intro h
    obtain ⟨u, hpath, rfl⟩ := h
    induction hpath with
    | refl s => exact .refl _
    | silent hstep _ ih =>
      exact .silent ((h _ hs _ _).2 ⟨_, hstep, rfl⟩) (ih (ha.mem_of_mem_targets hstep).2)
    | read hstep _ ih =>
      exact .read ((h _ hs _ _).2 ⟨_, hstep, rfl⟩) (ih (ha.mem_of_mem_targets hstep).2)

end Frontend.Automaton
