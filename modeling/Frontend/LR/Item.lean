import Frontend.Fresh
import Frontend.Grammar.Basic

/-!
# LR(0) items

An item is a production with a dot in its body: what stands before the dot has been
recognised. The closure of a set of items adds the productions of every symbol after a dot,
and `goto` moves the dots over one symbol.
-/

namespace Frontend

/-- A production, by its number, and the number of symbols before the dot. -/
structure Item where
  production : Nat
  dot : Nat
  deriving DecidableEq, Repr

namespace Item

/-- Items compare by their productions first. -/
instance : LT Item :=
  ⟨fun i j => i.production < j.production ∨ i.production = j.production ∧ i.dot < j.dot⟩

instance : DecidableLT Item :=
  fun i j => inferInstanceAs
    (Decidable (i.production < j.production ∨ i.production = j.production ∧ i.dot < j.dot))

instance : StrictTotal Item where
  lt_irrefl _ h := h.elim (Nat.lt_irrefl _) fun h => Nat.lt_irrefl _ h.2
  lt_trans {a b c} h h' := by
    rcases h with h | ⟨e, h⟩ <;> rcases h' with h' | ⟨e', h'⟩
    · exact .inl (Nat.lt_trans h h')
    · exact .inl (e' ▸ h)
    · exact .inl (e ▸ h')
    · exact .inr ⟨e.trans e', Nat.lt_trans h h'⟩
  lt_trichotomy a b := by
    obtain ⟨p, d⟩ := a
    obtain ⟨q, e⟩ := b
    rcases Nat.lt_trichotomy p q with h | rfl | h
    · exact .inl (.inl h)
    · rcases Nat.lt_trichotomy d e with h | rfl | h
      · exact .inl (.inr ⟨rfl, h⟩)
      · exact .inr (.inl rfl)
      · exact .inr (.inr (.inr ⟨rfl, h⟩))
    · exact .inr (.inr (.inl h))

/-- The symbol right after the dot. -/
def next? (ps : List Production) (i : Item) : Option String :=
  ps[i.production]?.bind fun p => p.body[i.dot]?

/-- The item with its dot moved over one symbol. -/
def advance (i : Item) : Item := ⟨i.production, i.dot + 1⟩

/-- The text of a body with a dot, as far as the dot lies in it. -/
def bodyText : Nat → Body → String
  | 0, body => " ." ++ String.join (body.map (" " ++ ·))
  | _ + 1, [] => ""
  | dot + 1, s :: rest => " " ++ s ++ bodyText dot rest

/-- The text of an item, if there is a production of its number. -/
def render? (ps : List Production) (i : Item) : Option String :=
  ps[i.production]?.map fun p => p.head ++ " ->" ++ bodyText i.dot p.body

end Item

/-- A set of items. -/
abbrev ItemSet := OrdSet Item

namespace ItemSet

/-- Tells whether every item has a production of its number. -/
def isValid (ps : List Production) (items : ItemSet) : Bool :=
  items.toList.all fun i => i.production < ps.length

/-- The items with the dot at the start of each production of a symbol. -/
def opening (ps : List Production) (symbol : String) : List Item :=
  (List.range ps.length).filterMap fun n =>
    match ps[n]? with
    | some p => if p.head = symbol then some ⟨n, 0⟩ else none
    | none => none

/-- The items that an item brings with it: those that open the symbol after its dot. -/
def predicted (ps : List Production) (i : Item) : List Item :=
  match i.next? ps with
  | some symbol => opening ps symbol
  | none => []

/-- The closure of a set of items: with an item, the productions of the symbol after its dot
belong to it. -/
def closure (ps : List Production) (items : ItemSet) : ItemSet :=
  OrdSet.ofList (explore (predicted ps) (items.size + ps.length) items.toList)

/-- The closure of the items whose dots can move over a symbol, after that move. -/
def goto (ps : List Production) (items : ItemSet) (symbol : String) : ItemSet :=
  closure ps <|
    (items.filter fun i => i.next? ps == some symbol).map Item.advance

/-- The symbols after the dots of a set of items, in order of occurrence. -/
def nextSymbols (ps : List Production) (items : ItemSet) : List String :=
  newcomers [] (items.toList.filterMap (Item.next? ps))

end ItemSet

/-! ## Augmented productions -/

namespace Grammar

/-- A start symbol that no symbol of the grammar equals: the old one with primes. -/
def augmentedStart (g : Grammar) : String :=
  fresh (g.nonterminals ++ g.terminals.toList) fun k => g.start ++ repeated (k + 1) "'"

/-- The productions of the grammar after one from the new start symbol to the old. -/
def augmentedProductions (g : Grammar) : List Production :=
  ⟨g.augmentedStart, [g.start]⟩ :: g.productions

end Grammar

end Frontend
