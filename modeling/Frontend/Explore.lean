/-!
# Breadth-first exploration

`explore next bound start` lists what can be reached from `start` by steps of `next`,
each element once, in breadth-first order of discovery. Each unit of the bound expands one
element, so a bound as large as the number of reachable elements suffices. The closures,
the subset constructions and the collection of parser states are all explorations.
-/

namespace Frontend

variable {α : Type u} [DecidableEq α]

/-- The number of subsets of `n` things, and so a bound on an exploration of sets. -/
def subsetCount (n : Nat) : Nat := Nat.pow 2 n

/-- The elements of a list that are not in `seen`, each at its first occurrence. -/
def newcomers (seen : List α) : List α → List α
  | [] => []
  | x :: xs => if x ∈ seen then newcomers seen xs else x :: newcomers (x :: seen) xs

theorem mem_newcomers {seen l : List α} {a : α} : a ∈ newcomers seen l ↔ a ∈ l ∧ a ∉ seen := by
  induction l generalizing seen with
  | nil => simp [newcomers]
  | cons x xs ih =>
    rw [newcomers]
    split
    · rw [ih]; grind
    · rw [List.mem_cons, ih]; grind

theorem nodup_newcomers {seen l : List α} : (newcomers seen l).Nodup := by
  induction l generalizing seen with
  | nil => simp [newcomers]
  | cons x xs ih =>
    rw [newcomers]
    split
    · exact ih
    · refine List.nodup_cons.2 ⟨fun h => ?_, ih⟩
      simp [mem_newcomers] at h

/-- Goes on with an exploration in which `done` has been expanded, latest first, and `todo`
has been discovered but not expanded. -/
def exploreFrom (next : α → List α) : Nat → List α → List α → List α
  | 0, done, todo => done.reverse ++ todo
  | _ + 1, done, [] => done.reverse
  | n + 1, done, x :: todo =>
    -- Newcomers go to the end of the queue: what was found earlier is expanded earlier.
    exploreFrom next n (x :: done) (todo ++ newcomers (x :: (done ++ todo)) (next x))

/-- The elements reachable from `start`, in breadth-first order of discovery, expanding at
most `bound` of them. -/
def explore (next : α → List α) (bound : Nat) (start : List α) : List α :=
  exploreFrom next bound [] (newcomers [] start)

end Frontend
