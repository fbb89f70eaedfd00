import Frontend.Explore
import Frontend.OrdSet
import Mathlib.Data.Finset.Powerset
import Mathlib.Logic.Relation

/-!
# What an exploration finds

`explore` is given a bound on the number of elements that it expands. `mem_explore` says
that it lists exactly the reachable elements as soon as no more than that many different
elements can be reached; `nodup_explore` and `explore_cons` say that it lists each of them
once, the start first.

The argument is the usual one for a worklist. `Finishes` is the worklist without a bound: it
expands until nothing is left to expand. With the bound it comes to the same end
(`finishes_explore`), because everything reachable is among the expanded elements when the
bound is used up; and in the end what has been expanded has its successors listed
(`Finishes.closed`). The bounds that the library uses are of two kinds: the reachable elements
lie in a given list (`atMost_of_mem`), or they are sets whose members lie in a given list
(`atMost_subsets`).
-/

namespace Frontend

open Relation (ReflTransGen)

/-! ## At most so many -/

/-- No more than `n` different elements have the property. -/
def AtMost (n : Nat) (p : α → Prop) : Prop :=
  ∀ l : List α, l.Nodup → (∀ a ∈ l, p a) → l.length ≤ n

/-- What lies in a list is no more than its length. -/
theorem atMost_of_mem {p : α → Prop} (u : List α) (h : ∀ a, p a → a ∈ u) :
    AtMost u.length p := by
  intro l hl hp
  exact (List.subperm_of_subset hl fun a ha => h a (hp a ha)).length_le

/-- There are no more sets with members in a list than the list has sublists. -/
theorem atMost_subsets [LT α] [DecidableLT α] [StrictTotal α] [DecidableEq α]
    {p : OrdSet α → Prop} (u : List α) (h : ∀ s, p s → ∀ a, a ∈ s → a ∈ u) :
    AtMost (subsetCount u.length) p := by
  intro l hl hp
  -- Sets with the same members are equal, so different sets give different subsets of `u`.
  let f : OrdSet α → Finset α := fun s => s.toList.toFinset
  have hf : Function.Injective f := by
    intro s t hst
    ext a
    have ha : a ∈ f s ↔ a ∈ f t := by rw [hst]
    simpa [f, OrdSet.mem_def] using ha
  have hsub : (l.map f).toFinset ⊆ u.toFinset.powerset := by
    intro x hx
    rw [List.mem_toFinset, List.mem_map] at hx
    obtain ⟨s, hs, rfl⟩ := hx
    rw [Finset.mem_powerset]
    intro a ha
    rw [List.mem_toFinset] at ha ⊢
    exact h s (hp s hs) a ha
  have hcard := Finset.card_le_card hsub
  rw [List.toFinset_card_of_nodup (hl.map hf), List.length_map, Finset.card_powerset] at hcard
  calc l.length ≤ 2 ^ u.toFinset.card := hcard
    _ ≤ 2 ^ u.length := Nat.pow_le_pow_right (by decide) (List.toFinset_card_le u)

/-! ## Reachable elements -/

/-- `b` can be reached from an element of `start` by steps of `next`. -/
def Reachable (next : α → List α) (start : List α) (b : α) : Prop :=
  ∃ a ∈ start, ReflTransGen (fun x y => y ∈ next x) a b

variable {α : Type u} {next : α → List α} {start : List α}

theorem Reachable.of_mem {a : α} (h : a ∈ start) : Reachable next start a :=
  ⟨a, h, .refl⟩

theorem Reachable.step {a b : α} (h : Reachable next start a) (hb : b ∈ next a) :
    Reachable next start b := by
  obtain ⟨s, hs, hr⟩ := h
  exact ⟨s, hs, hr.tail hb⟩

/-- What holds of the start and is kept by every step holds of all that is reachable. -/
theorem Reachable.induction {p : α → Prop} {b : α} (h : Reachable next start b)
    (hstart : ∀ a ∈ start, p a) (hstep : ∀ a b, p a → b ∈ next a → p b) : p b := by
  obtain ⟨a, ha, hr⟩ := h
  induction hr with
  | refl => exact hstart a ha
  | tail _ hb ih => exact hstep _ _ ih hb

/-! ## The worklist -/

variable [DecidableEq α]

/-- To expand an element of the worklist adds reachable elements only. -/
theorem reachable_next {done todo : List α} {x : α}
    (h : ∀ a ∈ done ++ x :: todo, Reachable next start a) :
    ∀ a ∈ x :: done ++ (todo ++ newcomers (x :: (done ++ todo)) (next x)),
      Reachable next start a := by
  intro a ha
  rw [List.cons_append, List.mem_cons, List.mem_append, List.mem_append, mem_newcomers] at ha
  rcases ha with rfl | ha | ha | ha
  · exact h a (by simp)
  · exact h a (by simp [ha])
  · exact h a (by simp [ha])
  · exact (h x (by simp)).step ha.1

theorem exploreFrom_reachable {n : Nat} {done todo : List α}
    (h : ∀ a ∈ done ++ todo, Reachable next start a) :
    ∀ a ∈ exploreFrom next n done todo, Reachable next start a := by
  induction n generalizing done todo with
  | zero =>
    intro a ha
    exact h a (by simpa [exploreFrom] using ha)
  | succ n ih =>
    cases todo with
    | nil =>
      intro a ha
      exact h a (by simpa [exploreFrom] using ha)
    | cons x todo =>
      unfold exploreFrom
      exact ih (reachable_next h)

theorem nodup_next {done todo : List α} {x : α} (h : (done ++ x :: todo).Nodup) :
    (x :: done ++ (todo ++ newcomers (x :: (done ++ todo)) (next x))).Nodup := by
  have hx : (x :: (done ++ todo)).Nodup := List.nodup_middle.1 h
  rw [← List.append_assoc, List.cons_append, ← List.cons_append]
  refine List.nodup_append.2 ⟨hx, nodup_newcomers, fun a ha b hb e => ?_⟩
  exact (mem_newcomers.1 hb).2 (e ▸ ha)

theorem nodup_exploreFrom {n : Nat} {done todo : List α} (h : (done ++ todo).Nodup) :
    (exploreFrom next n done todo).Nodup := by
  induction n generalizing done todo with
  | zero =>
    unfold exploreFrom
    exact ((List.reverse_perm done).append_right todo).nodup_iff.2 h
  | succ n ih =>
    cases todo with
    | nil => simpa [exploreFrom] using h
    | cons x todo =>
      unfold exploreFrom
      exact ih (nodup_next h)

/-- What has been discovered is listed first, in the order of its discovery. -/
theorem exploreFrom_append (next : α → List α) (n : Nat) (done todo : List α) :
    ∃ more, exploreFrom next n done todo = done.reverse ++ todo ++ more := by
  induction n generalizing done todo with
  | zero => exact ⟨[], by simp [exploreFrom]⟩
  | succ n ih =>
    cases todo with
    | nil => exact ⟨[], by simp [exploreFrom]⟩
    | cons x todo =>
      unfold exploreFrom
      obtain ⟨more, h⟩ := ih (x :: done) (todo ++ newcomers (x :: (done ++ todo)) (next x))
      rw [h]
      exact ⟨newcomers (x :: (done ++ todo)) (next x) ++ more, by simp⟩

/-- A worklist with `done` expanded, latest first, and `todo` waiting comes to its end with the
given list: the first in the queue is expanded until none is left. -/
inductive Finishes (next : α → List α) : List α → List α → List α → Prop
  | stop (done : List α) : Finishes next done [] done.reverse
  | expand {done todo found : List α} {x : α}
    (rest : Finishes next (x :: done) (todo ++ newcomers (x :: (done ++ todo)) (next x)) found) :
    Finishes next done (x :: todo) found

/-- If the bound suffices, the worklist comes to its end with what is listed. -/
theorem finishes_exploreFrom {n : Nat} {done todo : List α} (hnodup : (done ++ todo).Nodup)
    (hreach : ∀ a ∈ done ++ todo, Reachable next start a)
    (hbound : AtMost (done.length + n) (Reachable next start)) :
    Finishes next done todo (exploreFrom next n done todo) := by
  induction n generalizing done todo with
  | zero =>
    -- As many elements are done as there can be, so nothing is left to do.
    have hlen := hbound _ hnodup hreach
    rw [List.length_append] at hlen
    obtain rfl : todo = [] := List.length_eq_zero_iff.1 (by omega)
    unfold exploreFrom
    rw [List.append_nil]
    exact .stop done
  | succ n ih =>
    cases todo with
    | nil => exact .stop done
    | cons x todo =>
      refine .expand (ih (nodup_next hnodup) (reachable_next hreach) ?_)
      rw [List.length_cons, Nat.add_assoc, Nat.add_comm 1 n]
      exact hbound

/-- What a worklist has discovered is in the list that it comes to its end with. -/
theorem Finishes.mem {done todo found : List α} (h : Finishes next done todo found) :
    ∀ a ∈ done ++ todo, a ∈ found := by
  induction h with
  | stop done => simp
  | @expand done todo found x _ ih =>
    intro a ha
    refine ih a ?_
    simp only [List.mem_append, List.mem_cons] at ha ⊢
    tauto

/-- In the end the successors of everything listed are listed. -/
theorem Finishes.closed {done todo found : List α} (h : Finishes next done todo found)
    (hclosed : ∀ a ∈ done, ∀ b ∈ next a, b ∈ done ++ todo) :
    ∀ a ∈ found, ∀ b ∈ next a, b ∈ found := by
  induction h with
  | stop done => simpa using hclosed
  | @expand done todo found x _ ih =>
    refine ih fun a ha b hb => ?_
    -- A successor that is new belongs to `x`, and is put at the end of what is to be done.
    by_cases hseen : b ∈ x :: (done ++ todo)
    · simp only [List.cons_append, List.mem_cons, List.mem_append] at hseen ⊢
      rcases hseen with h | h | h
      · exact .inl h
      · exact .inr (.inl h)
      · exact .inr (.inr (.inl h))
    · rcases List.mem_cons.1 ha with rfl | ha
      · simp only [List.cons_append, List.mem_cons, List.mem_append]
        exact .inr (.inr (.inr (mem_newcomers.2 ⟨hb, hseen⟩)))
      · have hmem := hclosed a ha b hb
        simp only [List.mem_append, List.mem_cons] at hmem hseen
        exact absurd (or_left_comm.1 hmem) hseen

/-! ## The whole exploration -/

theorem nodup_explore {bound : Nat} : (explore next bound start).Nodup :=
  nodup_exploreFrom (by simpa using nodup_newcomers)

/-- An exploration lists its start first. -/
theorem explore_cons (next : α → List α) (bound : Nat) (a : α) :
    ∃ more, explore next bound [a] = a :: more := by
  obtain ⟨more, h⟩ := exploreFrom_append next bound [] [a]
  exact ⟨more, by simpa [explore, newcomers] using h⟩

theorem reachable_of_mem_explore {bound : Nat} {a : α} (h : a ∈ explore next bound start) :
    Reachable next start a :=
  exploreFrom_reachable (fun a ha => .of_mem (mem_newcomers.1 (by simpa using ha)).1) a h

/-- **The worklist of an exploration comes to its end**, provided that its bound is no smaller
than the number of reachable elements. -/
theorem finishes_explore {bound : Nat} (h : AtMost bound (Reachable next start)) :
    Finishes next [] (newcomers [] start) (explore next bound start) := by
  have hreach : ∀ a ∈ [] ++ newcomers [] start, Reachable next start a :=
    fun a ha => .of_mem (mem_newcomers.1 (by simpa using ha)).1
  exact finishes_exploreFrom (by simpa using nodup_newcomers) hreach (by simpa using h)

/-- **An exploration lists what is reachable**, provided that its bound is no smaller than
the number of reachable elements. -/
theorem mem_explore {bound : Nat} (h : AtMost bound (Reachable next start)) {a : α} :
    a ∈ explore next bound start ↔ Reachable next start a := by
  have hfinishes := finishes_explore h
  refine ⟨reachable_of_mem_explore, fun ha => ha.induction (fun s hs => ?_) ?_⟩
  · exact hfinishes.mem s (by simp [mem_newcomers, hs])
  · have hclosed := hfinishes.closed fun a ha => by cases ha
    exact fun a b ha hb => hclosed a ha b hb

/-! ## The same worklist under new names -/

theorem Finishes.unique {done todo found found' : List α} (h : Finishes next done todo found)
    (h' : Finishes next done todo found') : found = found' := by
  induction h with
  | stop done =>
    cases h'
    rfl
  | expand _ ih =>
    cases h' with
    | expand rest => exact ih rest

/-- One more element comes last, unless it was there before. -/
theorem newcomers_concat {seen l : List α} {a : α} : newcomers seen (l ++ [a]) =
    if a ∈ seen ∨ a ∈ l then newcomers seen l else newcomers seen l ++ [a] := by
  induction l generalizing seen with
  | nil =>
    simp only [List.nil_append, newcomers, List.not_mem_nil, or_false]
  | cons x l ih =>
    rw [List.cons_append, newcomers, newcomers, ih, ih]
    by_cases hx : x ∈ seen
    · have hiff : a ∈ seen ∨ a ∈ x :: l ↔ a ∈ seen ∨ a ∈ l := by
        rw [List.mem_cons]
        exact ⟨fun h => h.elim .inl fun h => h.elim (fun heq => .inl (heq ▸ hx)) .inr,
          fun h => h.imp_right .inr⟩
      rw [if_pos hx, if_pos hx]
      simp only [hiff]
    · have hiff : a ∈ x :: seen ∨ a ∈ l ↔ a ∈ seen ∨ a ∈ x :: l := by
        rw [List.mem_cons, List.mem_cons]
        exact or_assoc.trans or_left_comm
      rw [if_neg hx, if_neg hx]
      simp only [hiff, List.cons_append]
      split <;> rfl

section Map

variable {β : Type v} [DecidableEq β] {next' : β → List β} {f : α → β} {p : α → Prop}
  (hf : ∀ a b, p a → p b → f a = f b → a = b)

include hf

theorem newcomers_map {seen l : List α} (hp : ∀ a ∈ seen ++ l, p a) :
    newcomers (seen.map f) (l.map f) = (newcomers seen l).map f := by
  induction l generalizing seen with
  | nil => rfl
  | cons x l ih =>
    have hx : p x := hp x (by simp)
    have hseen : f x ∈ seen.map f ↔ x ∈ seen := by
      rw [List.mem_map]
      constructor
      · intro h
        obtain ⟨y, hy, heq⟩ := h
        rwa [← hf y x (hp y (List.mem_append_left _ hy)) hx heq]
      · exact fun h => ⟨x, h, rfl⟩
    rw [List.map_cons, newcomers, newcomers]
    by_cases h : x ∈ seen
    · rw [if_pos h, if_pos (hseen.2 h)]
      refine ih fun a ha => hp a ?_
      simp only [List.mem_append, List.mem_cons] at ha ⊢
      tauto
    · rw [if_neg h, if_neg fun hmem => h (hseen.1 hmem), List.map_cons, ← List.map_cons, ih]
      intro a ha
      refine hp a ?_
      simp only [List.cons_append, List.mem_append, List.mem_cons] at ha ⊢
      tauto

/-- **A worklist is carried over by names that tell its elements apart**, in the order in which it
is expanded. -/
theorem Finishes.map {done todo found : List α} (h : Finishes next done todo found)
    (hnext : ∀ a, p a → next' (f a) = (next a).map f ∧ ∀ b ∈ next a, p b)
    (hp : ∀ a ∈ done ++ todo, p a) :
    Finishes next' (done.map f) (todo.map f) (found.map f) := by
  induction h with
  | stop done =>
    rw [List.map_reverse]
    exact .stop _
  | @expand done todo found x _ ih =>
    obtain ⟨hmap, hx⟩ := hnext x (hp x (by simp))
    have hseen : ∀ a ∈ x :: (done ++ todo) ++ next x, p a := by
      intro a ha
      rcases List.mem_append.1 ha with ha | ha
      · exact hp a (List.perm_middle.mem_iff.2 ha)
      · exact hx a ha
    have hnew : newcomers (f x :: (done.map f ++ todo.map f)) (next' (f x)) =
        (newcomers (x :: (done ++ todo)) (next x)).map f := by
      rw [hmap, ← List.map_append, ← List.map_cons, newcomers_map hf hseen]
    refine .expand ?_
    rw [hnew, ← List.map_append, ← List.map_cons]
    refine ih fun a ha => hseen a ?_
    simp only [List.cons_append, List.mem_cons, List.mem_append, mem_newcomers] at ha ⊢
    tauto

end Map

end Frontend
