/-!
# Strictly ordered keys

The sets and maps of this library keep their elements in increasing order, so that two of
them with the same contents are the same value. `StrictTotal` collects what that needs of
the order: it is irreflexive and transitive, and any two keys compare.
-/

namespace Frontend

/-- `<` is a strict total order on `α`. -/
class StrictTotal (α : Type u) [LT α] : Prop where
  lt_irrefl : ∀ a : α, ¬ a < a
  lt_trans : ∀ {a b c : α}, a < b → b < c → a < c
  lt_trichotomy : ∀ a b : α, a < b ∨ a = b ∨ b < a

namespace StrictTotal

variable {α : Type u} [LT α] [StrictTotal α]

theorem lt_asymm {a b : α} (h : a < b) : ¬ b < a :=
  fun h' => lt_irrefl a (lt_trans h h')

theorem ne_of_lt {a b : α} (h : a < b) : a ≠ b :=
  fun e => lt_irrefl b (e ▸ h)

/-- What is neither below nor equal is above. -/
theorem lt_of_not_lt_of_ne {a b : α} (h : ¬ a < b) (hne : a ≠ b) : b < a := by
  rcases lt_trichotomy a b with h' | h' | h'
  · exact absurd h' h
  · exact absurd h' hne
  · exact h'

end StrictTotal

instance : StrictTotal Nat where
  lt_irrefl := Nat.lt_irrefl
  lt_trans := Nat.lt_trans
  lt_trichotomy := Nat.lt_trichotomy

instance : StrictTotal Char where
  lt_irrefl a := Nat.lt_irrefl a.toNat
  lt_trans := Char.lt_trans
  lt_trichotomy a b := by
    rcases Nat.lt_trichotomy a.toNat b.toNat with h | h | h
    · exact .inl h
    · exact .inr (.inl (Char.toNat_inj.1 h))
    · exact .inr (.inr h)

/-- Strings compare by code point, the first difference deciding. -/
instance : StrictTotal String where
  lt_irrefl := String.lt_irrefl
  lt_trans := String.lt_trans
  lt_trichotomy a b := by
    rcases Decidable.em (a < b) with h | h
    · exact .inl h
    · rcases Decidable.em (b < a) with h' | h'
      · exact .inr (.inr h')
      · exact .inr (.inl (String.le_antisymm h' h))

end Frontend
