import Frontend.Order

/-!
# Finite sets in increasing order

An `OrdSet` is a strictly increasing list, so each set of elements has exactly one
representation: sets with the same members are equal (`OrdSet.ext`). `insert` and `union`
keep the order as they go; `mem_insert`, `mem_union`, `mem_ofList` and `mem_filter` say
what each operation does to the members.
-/

namespace Frontend

/-- A finite set of `α`, listed in increasing order. -/
structure OrdSet (α : Type u) [LT α] where
  toList : List α
  sorted : toList.Pairwise (· < ·)

namespace OrdSet

/-! ## Increasing lists -/

section Lists

variable {α : Type u} [LT α] [DecidableLT α] [DecidableEq α]

/-- Looks `a` up in an increasing list; the search ends at the first larger element. -/
def occurs (a : α) : List α → Bool
  | [] => false
  | x :: xs => if x < a then occurs a xs else decide (x = a)

/-- Puts `a` at its place in an increasing list, unless it is there already. -/
def place (a : α) : List α → List α
  | [] => [a]
  | x :: xs => if x < a then x :: place a xs else if x = a then x :: xs else a :: x :: xs

/-- Puts `a` and then everything that `rest` merges in front of the larger elements. -/
def mergeAt (a : α) (rest : List α → List α) : List α → List α
  | [] => a :: rest []
  | y :: ys =>
    if y < a then y :: mergeAt a rest ys
    else if y = a then a :: rest ys
    else a :: rest (y :: ys)

/-- Merges two increasing lists, a common element once. -/
def merge : List α → List α → List α
  | [] => fun ys => ys
  | x :: xs => mergeAt x (merge xs)

theorem mem_place {a b : α} {l : List α} : b ∈ place a l ↔ b = a ∨ b ∈ l := by
  induction l with
  | nil => simp [place]
  | cons x xs ih =>
    simp only [place]
    split
    · simp only [List.mem_cons, ih]
      exact or_left_comm
    · split
      · next e => subst e; simp
      · simp

theorem mem_mergeAt {a b : α} {rest : List α → List α} {xs ys : List α}
    (hr : ∀ l, b ∈ rest l ↔ b ∈ xs ∨ b ∈ l) :
    b ∈ mergeAt a rest ys ↔ b ∈ a :: xs ∨ b ∈ ys := by
  induction ys with
  | nil => simp [mergeAt, hr]
  | cons y ys ih =>
    simp only [mergeAt]
    split
    · simp only [List.mem_cons] at ih ⊢
      rw [ih]
      exact or_left_comm
    · split
      · next e => subst e; simp only [List.mem_cons, hr]; grind
      · simp only [List.mem_cons, hr]; grind

theorem mem_merge {b : α} {xs ys : List α} : b ∈ merge xs ys ↔ b ∈ xs ∨ b ∈ ys := by
  induction xs generalizing ys with
  | nil => simp [merge]
  | cons x xs ih => exact mem_mergeAt fun _ => ih

variable [StrictTotal α]

theorem occurs_iff {a : α} {l : List α} (h : l.Pairwise (· < ·)) :
    occurs a l = true ↔ a ∈ l := by
  induction l with
  | nil => simp [occurs]
  | cons x xs ih =>
    obtain ⟨hx, hxs⟩ := List.pairwise_cons.1 h
    simp only [occurs, List.mem_cons]
    split
    · next hlt =>
      rw [ih hxs]
      exact ⟨.inr, fun h' => h'.resolve_left fun e => StrictTotal.lt_irrefl a (e ▸ hlt)⟩
    · next hlt =>
      rw [decide_eq_true_iff]
      exact ⟨fun e => .inl e.symm,
        fun h' => h'.elim (fun e => e.symm) fun hm => absurd (hx a hm) hlt⟩

theorem pairwise_place {a : α} {l : List α} (h : l.Pairwise (· < ·)) :
    (place a l).Pairwise (· < ·) := by
  induction l with
  | nil => simp [place]
  | cons x xs ih =>
    obtain ⟨hx, hxs⟩ := List.pairwise_cons.1 h
    simp only [place]
    split
    · next hlt =>
      refine List.pairwise_cons.2 ⟨fun b hb => ?_, ih hxs⟩
      rcases mem_place.1 hb with rfl | hb
      · exact hlt
      · exact hx b hb
    · next hlt =>
      split
      · exact h
      · next hne =>
        have hax : a < x := StrictTotal.lt_of_not_lt_of_ne hlt hne
        refine List.pairwise_cons.2 ⟨fun b hb => ?_, h⟩
        rcases List.mem_cons.1 hb with rfl | hb
        · exact hax
        · exact StrictTotal.lt_trans hax (hx b hb)

theorem pairwise_merge {xs ys : List α} (hxs : xs.Pairwise (· < ·))
    (hys : ys.Pairwise (· < ·)) : (merge xs ys).Pairwise (· < ·) := by
  induction xs generalizing ys with
  | nil => exact hys
  | cons x xs ih =>
    obtain ⟨hx, hxt⟩ := List.pairwise_cons.1 hxs
    show (mergeAt x (merge xs) ys).Pairwise (· < ·)
    induction ys with
    | nil =>
      refine List.pairwise_cons.2 ⟨fun b hb => ?_, ih hxt .nil⟩
      rcases mem_merge.1 hb with hb | hb
      · exact hx b hb
      · cases hb
    | cons y ys ihy =>
      obtain ⟨hy, hyt⟩ := List.pairwise_cons.1 hys
      simp only [mergeAt]
      split
      · next hlt =>
        refine List.pairwise_cons.2 ⟨fun b hb => ?_, ihy hyt⟩
        rcases (mem_mergeAt fun _ => mem_merge).1 hb with hb | hb
        · rcases List.mem_cons.1 hb with rfl | hb
          · exact hlt
          · exact StrictTotal.lt_trans hlt (hx b hb)
        · exact hy b hb
      · next hlt =>
        split
        · next e =>
          subst e
          refine List.pairwise_cons.2 ⟨fun b hb => ?_, ih hxt hyt⟩
          rcases mem_merge.1 hb with hb | hb
          · exact hx b hb
          · exact hy b hb
        · next hne =>
          have hxy : x < y := StrictTotal.lt_of_not_lt_of_ne hlt hne
          refine List.pairwise_cons.2 ⟨fun b hb => ?_, ih hxt hys⟩
          rcases mem_merge.1 hb with hb | hb
          · exact hx b hb
          · rcases List.mem_cons.1 hb with rfl | hb
            · exact hxy
            · exact StrictTotal.lt_trans hxy (hy b hb)

end Lists

section Uniqueness

variable {α : Type u} [LT α] [StrictTotal α]

/-- Two increasing lists with the same elements are the same list. -/
theorem eq_of_pairwise {xs ys : List α} (hxs : xs.Pairwise (· < ·))
    (hys : ys.Pairwise (· < ·)) (h : ∀ a, a ∈ xs ↔ a ∈ ys) : xs = ys := by
  induction xs generalizing ys with
  | nil =>
    cases ys with
    | nil => rfl
    | cons y ys => exact absurd ((h y).2 (by simp)) (by simp)
  | cons x xs ih =>
    cases ys with
    | nil => exact absurd ((h x).1 (by simp)) (by simp)
    | cons y ys =>
      obtain ⟨hx, hxt⟩ := List.pairwise_cons.1 hxs
      obtain ⟨hy, hyt⟩ := List.pairwise_cons.1 hys
      have hxy : x = y := by
        rcases List.mem_cons.1 ((h x).1 (by simp)) with e | hm
        · exact e
        · rcases List.mem_cons.1 ((h y).2 (by simp)) with e | hm'
          · exact e.symm
          · exact absurd (hx y hm') (StrictTotal.lt_asymm (hy x hm))
      subst hxy
      congr 1
      refine ih hxt hyt fun a => ⟨fun ha => ?_, fun ha => ?_⟩
      · exact (List.mem_cons.1 ((h a).1 (by simp [ha]))).resolve_left
          fun e => StrictTotal.lt_irrefl x (e ▸ hx a ha)
      · exact (List.mem_cons.1 ((h a).2 (by simp [ha]))).resolve_left
          fun e => StrictTotal.lt_irrefl x (e ▸ hy a ha)

end Uniqueness

/-! ## Sets -/

section Basic

variable {α : Type u} [LT α]

instance : Membership α (OrdSet α) := ⟨fun s a => a ∈ s.toList⟩

theorem mem_def {a : α} {s : OrdSet α} : a ∈ s ↔ a ∈ s.toList := Iff.rfl

theorem toList_inj {s t : OrdSet α} : s.toList = t.toList ↔ s = t := by
  cases s; cases t; simp

instance [DecidableEq α] : DecidableEq (OrdSet α) :=
  fun _ _ => decidable_of_iff _ toList_inj

/-- Sets with the same members are equal. -/
@[ext] theorem ext [StrictTotal α] {s t : OrdSet α} (h : ∀ a, a ∈ s ↔ a ∈ t) : s = t :=
  toList_inj.1 (eq_of_pairwise s.sorted t.sorted h)

/-- The set without members. -/
def empty : OrdSet α := ⟨[], .nil⟩

instance : EmptyCollection (OrdSet α) := ⟨empty⟩

instance : Inhabited (OrdSet α) := ⟨empty⟩

@[simp] theorem not_mem_empty {a : α} : ¬ a ∈ (∅ : OrdSet α) := List.not_mem_nil

/-- The set whose one member is `a`. -/
def singleton (a : α) : OrdSet α := ⟨[a], List.pairwise_singleton _ _⟩

@[simp] theorem mem_singleton {a b : α} : a ∈ singleton b ↔ a = b := List.mem_singleton

/-- The number of members. -/
def size (s : OrdSet α) : Nat := s.toList.length

/-- Tells whether the set has no members. -/
def isEmpty (s : OrdSet α) : Bool := s.toList.isEmpty

/-- The members that satisfy `p`. -/
def filter (p : α → Bool) (s : OrdSet α) : OrdSet α := ⟨s.toList.filter p, s.sorted.filter p⟩

@[simp] theorem mem_filter {p : α → Bool} {s : OrdSet α} {a : α} :
    a ∈ s.filter p ↔ a ∈ s ∧ p a = true := List.mem_filter

end Basic

section Operations

variable {α : Type u} [LT α] [DecidableLT α] [DecidableEq α] [StrictTotal α]

instance (a : α) (s : OrdSet α) : Decidable (a ∈ s) :=
  decidable_of_iff _ (occurs_iff s.sorted)

/-- Adds `a` to the set. -/
def insert (a : α) (s : OrdSet α) : OrdSet α := ⟨place a s.toList, pairwise_place s.sorted⟩

@[simp] theorem mem_insert {a b : α} {s : OrdSet α} : b ∈ s.insert a ↔ b = a ∨ b ∈ s :=
  mem_place

/-- The members of either set. -/
def union (s t : OrdSet α) : OrdSet α :=
  ⟨merge s.toList t.toList, pairwise_merge s.sorted t.sorted⟩

instance : Union (OrdSet α) := ⟨union⟩

@[simp] theorem mem_union {a : α} {s t : OrdSet α} : a ∈ s ∪ t ↔ a ∈ s ∨ a ∈ t := mem_merge

/-- The set of the elements of a list. -/
def ofList (l : List α) : OrdSet α := l.foldl (fun s a => s.insert a) ∅

theorem mem_foldl_insert {a : α} {l : List α} {s : OrdSet α} :
    a ∈ l.foldl (fun s a => s.insert a) s ↔ a ∈ l ∨ a ∈ s := by
  induction l generalizing s with
  | nil => simp
  | cons x xs ih =>
    rw [List.foldl_cons, ih, mem_insert, List.mem_cons]
    grind

@[simp] theorem mem_ofList {a : α} {l : List α} : a ∈ ofList l ↔ a ∈ l := by
  rw [ofList, mem_foldl_insert]
  simp

/-- The union of the sets that `f` gives for the elements of a list. -/
def unions (f : β → OrdSet α) (l : List β) : OrdSet α := l.foldl (fun s b => s ∪ f b) ∅

theorem mem_foldl_union {f : β → OrdSet α} {a : α} {l : List β} {s : OrdSet α} :
    a ∈ l.foldl (fun s b => s ∪ f b) s ↔ (∃ b ∈ l, a ∈ f b) ∨ a ∈ s := by
  induction l generalizing s with
  | nil => simp
  | cons x xs ih =>
    rw [List.foldl_cons, ih, mem_union]
    simp only [List.mem_cons, exists_eq_or_imp]
    grind

@[simp] theorem mem_unions {f : β → OrdSet α} {a : α} {l : List β} :
    a ∈ unions f l ↔ ∃ b ∈ l, a ∈ f b := by
  rw [unions, mem_foldl_union]
  simp

/-- The images of the members. -/
def map {β : Type v} [LT β] (f : β → α) (s : OrdSet β) : OrdSet α := ofList (s.toList.map f)

@[simp] theorem mem_map {β : Type v} [LT β] {f : β → α} {s : OrdSet β} {a : α} :
    a ∈ s.map f ↔ ∃ b, b ∈ s ∧ f b = a := by
  rw [map, mem_ofList, List.mem_map]
  rfl

end Operations

end OrdSet

end Frontend
