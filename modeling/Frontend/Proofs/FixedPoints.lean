import Frontend.Fixpoint
import Mathlib.Logic.Function.Iterate

/-!
# Iterations that reach a fixed point

`stabilize` stops after a given number of rounds, whether the state is stable then or not.
If every round that changes the state raises a measure, and no state that keeps the
invariant has a measure above the bound, then the result is a fixed point. In that case rounds
without a limit on their number come to rest there too (`Settles`).
-/

namespace Frontend

variable {σ : Type u} [DecidableEq σ] {f : σ → σ}

/-- What a round keeps, the whole iteration keeps. -/
theorem stabilize_induction {p : σ → Prop} (hstep : ∀ s, p s → p (f s)) (bound : Nat) (s : σ)
    (h : p s) : p (stabilize f bound s) := by
  induction bound generalizing s with
  | zero => exact h
  | succ bound ih =>
    rw [stabilize]
    split
    · exact h
    · exact ih (f s) (hstep s h)

/-- **The iteration ends in a fixed point**, if no more than `bound` rounds can raise the
measure. -/
theorem stabilize_fixed {p : σ → Prop} (measure : σ → Nat) {top : Nat}
    (hstep : ∀ s, p s → p (f s)) (htop : ∀ s, p s → measure s ≤ top)
    (hgrow : ∀ s, p s → f s ≠ s → measure s < measure (f s)) {bound : Nat} {s : σ} (h : p s)
    (hbound : top < measure s + bound) : f (stabilize f bound s) = stabilize f bound s := by
  induction bound generalizing s with
  | zero =>
    have hs := htop s h
    omega
  | succ bound ih =>
    rw [stabilize]
    split
    · next heq => exact heq
    · next hne =>
      have hlt := hgrow s h hne
      exact ih (hstep s h) (by omega)

/-- Rounds of `f` from `s` come to rest in `last`: it is there after some of them, and one more
leaves it as it is. -/
def Settles (f : σ → σ) (s last : σ) : Prop := ∃ rounds, f^[rounds] s = last ∧ f last = last

/-- What `stabilize` gives is there after some rounds. -/
theorem exists_iterate_eq (f : σ → σ) (bound : Nat) (s : σ) :
    ∃ rounds, f^[rounds] s = stabilize f bound s := by
  induction bound generalizing s with
  | zero => exact ⟨0, rfl⟩
  | succ bound ih =>
    rw [stabilize]
    split
    · exact ⟨0, rfl⟩
    · obtain ⟨rounds, h⟩ := ih (f s)
      exact ⟨rounds + 1, h⟩

/-- If `stabilize` gives a fixed point, the rounds come to rest in it. -/
theorem settles_of_fixed {bound : Nat} {s : σ}
    (h : f (stabilize f bound s) = stabilize f bound s) : Settles f s (stabilize f bound s) := by
  obtain ⟨rounds, hrounds⟩ := exists_iterate_eq f bound s
  exact ⟨rounds, hrounds, h⟩

end Frontend
