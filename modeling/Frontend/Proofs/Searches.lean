import Frontend.Proofs.Exploration

/-!
# Searches in any order

`explore` expands in the order of discovery. Where nothing depends on the order, a search may
just as well take the latest first, or any other of the elements that wait: `SearchState.Expands`
is one step of a search that leaves the choice open.

Whatever is chosen, the search comes to an end if there are finitely many reachable elements
(`acc_initial`), and in the end it has found exactly those (`mem_found_iff`). The argument is one
invariant (`SearchState.Sound`), which every step keeps: what has been found is reachable, and
whatever does not wait any more has its successors among it. A step takes one element off those
that wait and puts newcomers only back, so the elements that wait and those that are still to be
found become fewer.
-/

namespace Frontend

open Relation (ReflTransGen)

/-- How far a search has come: what it has found, and what of it waits to be expanded. -/
structure SearchState (α : Type u) where
  found : List α
  todo : List α
  deriving DecidableEq

namespace SearchState

variable {α : Type u} {next : α → List α} {start : List α} {s t : SearchState α}

/-- What a search keeps. -/
structure Sound (next : α → List α) (start : List α) (s : SearchState α) : Prop where
  nodup : s.found.Nodup
  reachable : ∀ a ∈ s.found, Reachable next start a
  start_mem : ∀ a ∈ start, a ∈ s.found
  /-- The successors of what has been expanded have been found. -/
  closed : ∀ a ∈ s.found, a ∉ s.todo → ∀ b ∈ next a, b ∈ s.found
  todo_subset : ∀ a ∈ s.todo, a ∈ s.found

/-- When nothing waits any more, everything reachable has been found. -/
theorem Sound.mem_iff (hs : s.Sound next start) (hdone : s.todo = []) {a : α} :
    a ∈ s.found ↔ Reachable next start a := by
  refine ⟨hs.reachable a, fun h => h.induction hs.start_mem fun a b ha hb => ?_⟩
  exact hs.closed a ha (hdone ▸ List.not_mem_nil) b hb

/-! ## Steps -/

variable [DecidableEq α]

/-- Where a search begins: all of the start waits. -/
def initial (start : List α) : SearchState α := ⟨newcomers [] start, newcomers [] start⟩

/-- The state after `x` has been expanded. -/
def expand (next : α → List α) (s : SearchState α) (x : α) : SearchState α :=
  let new := newcomers s.found (next x)
  ⟨new ++ s.found, new ++ s.todo.erase x⟩

/-- Some element that waits is expanded. -/
def Expands (next : α → List α) (s t : SearchState α) : Prop :=
  ∃ x ∈ s.todo, t = s.expand next x

theorem sound_initial : (initial start).Sound next start where
  nodup := nodup_newcomers
  reachable := fun _ ha => .of_mem (mem_newcomers.1 ha).1
  start_mem := fun _ ha => mem_newcomers.2 ⟨ha, List.not_mem_nil⟩
  closed := fun _ ha hnot => absurd ha hnot
  todo_subset := fun _ ha => ha

theorem Sound.expands (hs : s.Sound next start) (h : Expands next s t) : t.Sound next start := by
  obtain ⟨x, hx, rfl⟩ := h
  have hnext : ∀ b ∈ next x, b ∈ newcomers s.found (next x) ++ s.found := by
    intro b hb
    rw [List.mem_append, mem_newcomers]
    by_cases hfound : b ∈ s.found
    · exact .inr hfound
    · exact .inl ⟨hb, hfound⟩
  constructor
  case nodup =>
    refine List.nodup_append.2 ⟨nodup_newcomers, hs.nodup, fun a ha b hb heq => ?_⟩
    exact (mem_newcomers.1 ha).2 (heq ▸ hb)
  case reachable =>
    intro a ha
    rcases List.mem_append.1 ha with ha | ha
    · exact (hs.reachable x (hs.todo_subset x hx)).step (mem_newcomers.1 ha).1
    · exact hs.reachable a ha
  case start_mem => exact fun a ha => List.mem_append_right _ (hs.start_mem a ha)
  case closed =>
    intro a ha hnot b hb
    obtain ⟨hnew, hold⟩ := not_or.1 (List.mem_append.not.1 hnot)
    have ha := (List.mem_append.1 ha).resolve_left hnew
    -- What no longer waits is `x`, or did not wait before.
    by_cases hax : a = x
    · exact hnext b (hax ▸ hb)
    · rw [List.mem_erase_of_ne hax] at hold
      exact List.mem_append_right _ (hs.closed a ha hold b hb)
  case todo_subset =>
    intro a ha
    rcases List.mem_append.1 ha with ha | ha
    · exact List.mem_append_left _ ha
    · exact List.mem_append_right _ (hs.todo_subset a (List.mem_of_mem_erase ha))

theorem Sound.run (hs : s.Sound next start) (h : ReflTransGen (Expands next) s t) :
    t.Sound next start := by
  induction h with
  | refl => exact hs
  | tail _ hstep ih => exact ih.expands hstep

/-! ## The end -/

/-- There are no more steps to come than elements wait or are still to be found. -/
theorem Sound.acc {bound : Nat} (hbound : AtMost bound (Reachable next start)) (n : Nat)
    (hs : s.Sound next start) (hn : s.todo.length + bound ≤ s.found.length + n) :
    Acc (fun later now => Expands next now later) s := by
  induction n generalizing s with
  | zero =>
    have hfound := hbound s.found hs.nodup hs.reachable
    have htodo : s.todo = [] := List.length_eq_zero_iff.1 (by omega)
    refine .intro s fun t h => ?_
    obtain ⟨x, hx, -⟩ := h
    rw [htodo] at hx
    cases hx
  | succ n ih =>
    refine .intro s fun t h => ih (hs.expands h) ?_
    obtain ⟨x, hx, rfl⟩ := h
    have hlength := List.length_erase_of_mem hx
    have hpos := List.length_pos_of_mem hx
    simp only [expand, List.length_append]
    omega

/-- **Every search comes to an end**, in whatever order it expands what it has found. -/
theorem acc_initial {bound : Nat} (hbound : AtMost bound (Reachable next start)) :
    Acc (fun later now => Expands next now later) (initial start) :=
  sound_initial.acc hbound bound (Nat.le_refl _)

/-- **At its end a search has found what is reachable**, in whatever order it has expanded. -/
theorem mem_found_iff (h : ReflTransGen (Expands next) (initial start) s) (hdone : s.todo = [])
    {a : α} : a ∈ s.found ↔ Reachable next start a :=
  (sound_initial.run h).mem_iff hdone

end SearchState

end Frontend
