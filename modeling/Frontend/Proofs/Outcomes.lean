import Mathlib.Data.List.Forall2

/-!
# Results that are not errors

Where a pass succeeds, so have the passes that it is made of.
-/

namespace Frontend

variable {ε α β : Type} {r : Except ε α} {b : β}

theorem map_eq_ok {f : α → β} : r.map f = .ok b ↔ ∃ a, r = .ok a ∧ f a = b := by
  cases r with
  | error e => exact ⟨nofun, fun ⟨_, h, _⟩ => nomatch h⟩
  | ok a => exact ⟨fun h => ⟨a, rfl, Except.ok.inj h⟩, fun ⟨_, ha, h⟩ => by cases ha; rw [← h]; rfl⟩

theorem exists_of_isOk (h : r.isOk = true) : ∃ a, r = .ok a := by
  cases r with
  | error e => cases h
  | ok a => exact ⟨a, rfl⟩

theorem bind_eq_ok {f : α → Except ε β} :
    (r >>= f) = .ok b ↔ ∃ a, r = .ok a ∧ f a = .ok b := by
  cases r with
  | error e => exact ⟨nofun, fun ⟨_, h, _⟩ => nomatch h⟩
  | ok a => exact ⟨fun h => ⟨a, rfl, h⟩, fun ⟨_, ha, h⟩ => by cases ha; exact h⟩

/-- What is done to a result afterwards, and cannot fail, leaves it to the result whether there
is one. -/
theorem exists_map_eq_ok_iff {f : α → β} : (∃ b, r.map f = .ok b) ↔ ∃ a, r = .ok a := by
  cases r with
  | error e => exact iff_of_false (by simp [Except.map]) (by simp)
  | ok a => exact ⟨fun _ => ⟨a, rfl⟩, fun _ => ⟨f a, rfl⟩⟩

theorem exists_bind_eq_ok_iff {f : α → Except ε β} (hf : ∀ a, ∃ b, f a = .ok b) :
    (∃ b, (r >>= f) = .ok b) ↔ ∃ a, r = .ok a := by
  cases r with
  | error e => exact iff_of_false (by simp [bind, Except.bind]) (by simp)
  | ok a => exact ⟨fun _ => ⟨a, rfl⟩, fun _ => hf a⟩

/-- A pass over a list succeeds if it does on every member. -/
theorem mapM_eq_ok {f : α → Except ε β} {l : List α} {bs : List β} :
    l.mapM f = .ok bs ↔ List.Forall₂ (fun a b => f a = .ok b) l bs := by
  induction l generalizing bs with
  | nil =>
    rw [List.mapM_nil, List.forall₂_nil_left_iff]
    exact ⟨fun h => (Except.ok.inj h).symm, fun h => congrArg Except.ok h.symm⟩
  | cons a l ih =>
    rw [List.mapM_cons, bind_eq_ok]
    constructor
    · intro h
      obtain ⟨b, hb, h⟩ := h
      obtain ⟨bs', hbs', h⟩ := bind_eq_ok.1 h
      obtain rfl := Except.ok.inj h
      exact .cons hb (ih.1 hbs')
    · intro h
      rcases h with _ | ⟨hb, hbs⟩
      exact ⟨_, hb, bind_eq_ok.2 ⟨_, ih.2 hbs, rfl⟩⟩

end Frontend
