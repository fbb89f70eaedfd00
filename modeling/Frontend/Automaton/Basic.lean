import Frontend.OrdMap

/-!
# Finite automata with named states and tokens

An automaton may be nondeterministic and may move without reading a character. Its final
states can carry the token that they recognise. All parts are ordered sets and maps, so
automata with the same parts are equal. `Automaton.WellFormed` says that the parts fit
together.
-/

namespace Frontend

/-- What a move reads: nothing, or one character. -/
inductive Label where
  | epsilon
  | symbol (c : Char)
  deriving DecidableEq, Repr

namespace Label

/-- The place of a label in their order: the empty label first, then the characters. -/
def rank : Label → Nat
  | epsilon => 0
  | symbol c => c.toNat + 1

theorem rank_inj {l k : Label} (h : l.rank = k.rank) : l = k := by
  cases l <;> cases k
  · rfl
  · simp [rank] at h
  · simp [rank] at h
  · exact congrArg symbol (Char.toNat_inj.1 (Nat.succ.inj h))

instance : LT Label := ⟨fun l k => l.rank < k.rank⟩

instance : DecidableLT Label := fun l k => inferInstanceAs (Decidable (l.rank < k.rank))

instance : StrictTotal Label where
  lt_irrefl l := Nat.lt_irrefl l.rank
  lt_trans := Nat.lt_trans
  lt_trichotomy l k := (Nat.lt_trichotomy l.rank k.rank).imp id (Or.imp rank_inj id)

/-- The characters that a label reads. -/
def symbols : Label → OrdSet Char
  | epsilon => ∅
  | symbol c => OrdSet.singleton c

theorem mem_symbols {l : Label} {c : Char} : c ∈ l.symbols ↔ l = .symbol c := by
  cases l with
  | epsilon => exact iff_of_false OrdSet.not_mem_empty nofun
  | symbol d => rw [symbols, OrdSet.mem_singleton, Label.symbol.injEq, eq_comm]

end Label

/-- The state that a move leaves and the label that it reads. -/
structure Move where
  source : String
  label : Label
  deriving DecidableEq, Repr

namespace Move

/-- Moves compare by their states first. -/
instance : LT Move :=
  ⟨fun m n => m.source < n.source ∨ m.source = n.source ∧ m.label < n.label⟩

instance : DecidableLT Move :=
  fun m n =>
    inferInstanceAs (Decidable (m.source < n.source ∨ m.source = n.source ∧ m.label < n.label))

instance : StrictTotal Move where
  lt_irrefl m h := h.elim (StrictTotal.lt_irrefl _) fun h => StrictTotal.lt_irrefl _ h.2
  lt_trans {a b c} h h' := by
    rcases h with h | ⟨e, h⟩ <;> rcases h' with h' | ⟨e', h'⟩
    · exact .inl (StrictTotal.lt_trans h h')
    · exact .inl (e' ▸ h)
    · exact .inl (e ▸ h')
    · exact .inr ⟨e.trans e', StrictTotal.lt_trans h h'⟩
  lt_trichotomy a b := by
    obtain ⟨s, l⟩ := a
    obtain ⟨t, k⟩ := b
    rcases StrictTotal.lt_trichotomy s t with h | rfl | h
    · exact .inl (.inl h)
    · rcases StrictTotal.lt_trichotomy l k with h | rfl | h
      · exact .inl (.inr ⟨rfl, h⟩)
      · exact .inr (.inl rfl)
      · exact .inr (.inr (.inr ⟨rfl, h⟩))
    · exact .inr (.inr (.inl h))

end Move

/-- A finite automaton whose final states may recognise tokens. -/
structure Automaton where
  states : OrdSet String
  /-- The characters that the automaton knows. -/
  alphabet : OrdSet Char
  initial : String
  finals : OrdSet String
  /-- The states that each move leads to. -/
  transitions : OrdMap Move (OrdSet String)
  /-- The tokens of the final states. -/
  tokens : OrdMap String String
  deriving DecidableEq

namespace Automaton

/-- The automaton with one state and nothing else. -/
def ofInitial (initial : String) : Automaton where
  states := OrdSet.singleton initial
  alphabet := ∅
  initial := initial
  finals := ∅
  transitions := ∅
  tokens := ∅

/-- Adds a state. -/
def addState (a : Automaton) (state : String) : Automaton :=
  { a with states := a.states.insert state }

/-- Adds a character to the alphabet. -/
def addSymbol (a : Automaton) (c : Char) : Automaton :=
  { a with alphabet := a.alphabet.insert c }

/-- Adds a transition, and with it both its states and the character that it reads. -/
def addTransition (a : Automaton) (source : String) (label : Label) (target : String) :
    Automaton :=
  { a with
    states := (a.states.insert source).insert target
    alphabet := a.alphabet ∪ label.symbols
    transitions := a.transitions.alter ⟨source, label⟩ fun old => (old.getD ∅).insert target }

/-- Makes a state final, and lets it recognise `token` if one is given. -/
def addFinal (a : Automaton) (state : String) (token : Option String) : Automaton :=
  { a with
    states := a.states.insert state
    finals := a.finals.insert state
    tokens :=
      match token with
      | some token => a.tokens.insert state token
      | none => a.tokens }

/-- The states that a move of `state` on `label` leads to. -/
def targets (a : Automaton) (state : String) (label : Label) : OrdSet String :=
  a.transitions.getD ⟨state, label⟩ ∅

/-- The number of transitions, each target counted. -/
def transitionCount (a : Automaton) : Nat :=
  a.transitions.toList.foldr (fun (_, targets) n => targets.size + n) 0

/-- Tells whether every move reads a character and leads to at most one state. -/
def isDeterministic (a : Automaton) : Bool :=
  a.transitions.toList.all fun (move, targets) => move.label != .epsilon && targets.size ≤ 1

/-- The parts of an automaton fit together: what is mentioned exists. -/
structure WellFormed (a : Automaton) : Prop where
  initial_mem : a.initial ∈ a.states
  finals_subset : ∀ s, s ∈ a.finals → s ∈ a.states
  source_mem : ∀ m ts, a.transitions.get? m = some ts → m.source ∈ a.states
  target_mem : ∀ m ts, a.transitions.get? m = some ts → ∀ t, t ∈ ts → t ∈ a.states
  target_exists : ∀ m ts, a.transitions.get? m = some ts → ∃ t, t ∈ ts
  symbol_mem : ∀ s c ts, a.transitions.get? ⟨s, .symbol c⟩ = some ts → c ∈ a.alphabet
  token_final : ∀ s t, a.tokens.get? s = some t → s ∈ a.finals

end Automaton

end Frontend
