import Frontend.Proofs.Automaton.PersistedLines
import Frontend.Proofs.Automaton.Renaming
import Frontend.Proofs.Automaton.Subsets
import Frontend.Proofs.Automaton.Unions
import Frontend.Proofs.Outcomes
import Frontend.Proofs.Regex.Trees

/-!
# Whatever is produced is well-formed

`Automaton.Produced` holds of the automata that the operations of the library give, one after the
other in any order: those built by hand, unions, subset constructions, automata under new names,
automata that were read from a text and automata of expressions. Every operation keeps the parts
of an automaton together, so all of them are well-formed (`wellFormed_of_produced`).
-/

namespace Frontend.Automaton

variable {a b : Automaton} {s source target : String} {l : Label}
  {token : Option String}

/-! ## Adding to an automaton -/

theorem wellFormed_ofInitial (initial : String) : (ofInitial initial).WellFormed :=
  (selfContained_ofInitial initial).toWellFormed nofun nofun

theorem WellFormed.addTransition (ha : a.WellFormed) :
    (a.addTransition source l target).WellFormed :=
  ha.selfContained.addTransition.toWellFormed
    (inhabited_alter ha.target_exists fun _ => ⟨target, OrdSet.mem_insert.2 (.inl rfl)⟩)
    ha.token_final

theorem WellFormed.addFinal (ha : a.WellFormed) : (a.addFinal s token).WellFormed := by
  refine ha.selfContained.addFinal.toWellFormed ha.target_exists fun r t h => ?_
  rw [mem_finals_addFinal]
  cases token with
  | none => exact .inr (ha.token_final r t h)
  | some token =>
    rw [Automaton.addFinal, OrdMap.get?_insert] at h
    split at h
    · next heq => exact .inl heq
    · exact .inr (ha.token_final r t h)

theorem wellFormed_build (initial : String) (transitions : List (String × Label × String))
    (finals : List (String × Option String)) : (build initial transitions finals).WellFormed := by
  refine List.foldlRecOn (motive := WellFormed) finals _ ?_ fun _ ha _ _ => ha.addFinal
  exact List.foldlRecOn (motive := WellFormed) transitions _ (wellFormed_ofInitial initial)
    fun _ ha _ _ => ha.addTransition

/-! ## Reading -/

/-- What the header lines describe has no moves yet, whatever alphabet it is given. -/
theorem wellFormed_ofHeader (initial finals : List Char) (symbols : OrdSet Char) :
    ({ ofHeader initial finals with alphabet := symbols } : Automaton).WellFormed := by
  have hheader : (ofHeader initial finals).WellFormed ∧
      (ofHeader initial finals).transitions = ∅ := by
    unfold ofHeader
    -- The final states are added to an automaton without moves.
    refine List.foldlRecOn (motive := fun a : Automaton => a.WellFormed ∧ a.transitions = ∅)
      _ _ ⟨wellFormed_ofInitial _, rfl⟩ fun a ha _ _ => ?_
    exact ⟨ha.1.addFinal, ha.2⟩
  obtain ⟨hwf, hempty⟩ := hheader
  exact { hwf with
    symbol_mem := by
      intro s c ts hts
      rw [hempty] at hts
      cases hts }

theorem WellFormed.readTransitions {lines : List (List Char)} {n : Nat} (ha : a.WellFormed)
    (h : readTransitions n a lines = .ok b) : b.WellFormed := by
  fun_induction Automaton.readTransitions n a lines with
  | case1 => exact Except.ok.inj h ▸ ha
  | case2 _ _ _ _ _ ih => exact ih ha h
  | case3 => cases h
  | case4 _ _ _ _ _ _ _ _ ih => exact ih ha.addTransition h

/-- **What is read from a text is well-formed.** -/
theorem wellFormed_read {text : String} (h : read text = .ok a) : a.WellFormed := by
  obtain ⟨_, _, _, _, _, _, -, -, -, -, hread⟩ := exists_of_read h
  exact (wellFormed_ofHeader _ _ _).readTransitions hread

/-! ## All operations -/

/-- The automata that the operations of the library produce. -/
inductive Produced : Automaton → Prop
  | ofInitial (initial : String) : Produced (.ofInitial initial)
  | addTransition {a : Automaton} (h : Produced a) (source : String) (label : Label)
    (target : String) : Produced (a.addTransition source label target)
  | addFinal {a : Automaton} (h : Produced a) (state : String) (token : Option String) :
    Produced (a.addFinal state token)
  | union {a b : Automaton} (h : Produced a) (h' : Produced b) : Produced (a.union b)
  | unionAll {as : List Automaton} {all : Automaton} (h : ∀ a ∈ as, Produced a)
    (hall : unionAll? as = some all) : Produced all
  | determinize {a : Automaton} (h : Produced a) (priority : List String) :
    Produced (a.determinize priority)
  | canonical {a : Automaton} (h : Produced a) : Produced a.canonical
  | rename {a : Automaton} (h : Produced a) (f : String → String) : Produced (a.rename f)
  | read {text : String} {a : Automaton} (h : read text = .ok a) : Produced a
  | ofPostfix {ts : List Regex.Token} {t : Regex.Tree} (h : Regex.Tree.ofPostfix ts = .ok t)
    (token : String) : Produced (t.toAutomaton token)

/-- **Every automaton that the operations of the library produce is well-formed.** -/
theorem wellFormed_of_produced (h : a.Produced) : a.WellFormed := by
  induction h with
  | ofInitial initial => exact wellFormed_ofInitial initial
  | addTransition _ _ _ _ ih => exact ih.addTransition
  | addFinal _ _ _ ih => exact ih.addFinal
  | union _ _ ih ih' => exact wellFormed_union ih ih'
  | unionAll _ hall ih => exact wellFormed_unionAll ih hall
  | determinize _ _ ih => exact wellFormed_determinize ih.selfContained
  | canonical _ ih => exact wellFormed_canonical ih
  | rename _ f ih => exact wellFormed_rename ih f
  | read h => exact wellFormed_read h
  | ofPostfix h _ => exact Regex.Tree.wellFormed_toAutomaton (Regex.Tree.numbered_of_ofPostfix h)

/-- Unites an automaton with that of an expression and makes the union deterministic; then all
states get one name, and a state is added. -/
def mergedStates (a : Automaton) (t : Regex.Tree) : Automaton :=
  (((a.union (t.toAutomaton "ID")).determinize ["ID"]).rename fun _ => "s").addTransition
    "s" .epsilon "t"

theorem wellFormed_of_produced_merged :
    ∃ a t, read "2\nq0\nNUM#1\n0, \\&\nq0,0,NUM#1\n" = .ok a ∧
      Regex.Tree.ofPostfix [.literal 'x', .op .star] = .ok t ∧
      (a.mergedStates t).WellFormed ∧ (a.mergedStates t).states.toList = ["s", "t"] := by
  obtain ⟨a, ha⟩ : ∃ a, read "2\nq0\nNUM#1\n0, \\&\nq0,0,NUM#1\n" = .ok a :=
    exists_of_isOk (by decide +kernel)
  obtain ⟨t, ht⟩ : ∃ t, Regex.Tree.ofPostfix [.literal 'x', .op .star] = .ok t := ⟨_, rfl⟩
  refine ⟨a, t, ha, ht, wellFormed_of_produced ?_, ?_⟩
  · have hunion := Produced.union (.read ha) (.ofPostfix ht "ID")
    exact ((hunion.determinize ["ID"]).rename fun _ => "s").addTransition "s" .epsilon "t"
  · have hstates : ((Regex.Tree.ofPostfix [.literal 'x', .op .star]).toOption.bind fun t =>
        (read "2\nq0\nNUM#1\n0, \\&\nq0,0,NUM#1\n").toOption.map fun a =>
          (a.mergedStates t).states.toList) = some ["s", "t"] := by decide +kernel
    rw [ht, ha] at hstates
    exact Option.some.inj hstates

end Frontend.Automaton
