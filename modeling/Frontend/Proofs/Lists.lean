import Mathlib.Data.List.DropRight
import Mathlib.Data.List.Forall2

/-!
# Lists

Facts about lists of any kind, sorted by what they are about. Nothing here depends on what the
lists hold.
-/

namespace List

variable {α β : Type} {a b : α} {l m : List α}

/-! ## Lists in two parts -/

/-- An element of a list in two parts stands in the first or in the second. -/
theorem append_eq_append_cons_iff {before after : List α} :
    l ++ m = before ++ a :: after ↔
      (∃ mid, l = before ++ a :: mid ∧ after = mid ++ m) ∨
        ∃ mid, before = l ++ mid ∧ m = mid ++ a :: after := by
  rw [append_eq_append_iff]
  constructor
  · intro h
    rcases h with ⟨mid, hbefore, hm⟩ | ⟨mid, hl, hcons⟩
    · exact .inr ⟨mid, hbefore, hm⟩
    · rcases cons_eq_append_iff.1 hcons with ⟨rfl, hm⟩ | ⟨rest, rfl, hafter⟩
      · exact .inr ⟨[], by rw [hl, append_nil, append_nil], hm.symm ▸ rfl⟩
      · exact .inl ⟨rest, hl, hafter⟩
  · intro h
    rcases h with ⟨mid, hl, hafter⟩ | ⟨mid, hbefore, hm⟩
    · exact .inr ⟨a :: mid, hl, by rw [hafter, cons_append]⟩
    · exact .inl ⟨mid, hbefore, hm⟩

/-- What stands right behind the first part begins the second one. -/
theorem exists_eq_cons_of_getElem?_append (h : (l ++ m)[l.length]? = some a) :
    ∃ rest, m = a :: rest := by
  rw [getElem?_append_right (Nat.le_refl _), Nat.sub_self, ← head?_eq_getElem?] at h
  exact head?_eq_some_iff.1 h

/-- What is counted through from `n` is counted through in each of two parts. -/
theorem range'_parts {n : Nat} {l m : List Nat} (h : l ++ m = range' n (l ++ m).length) :
    l = range' n l.length ∧ m = range' (n + l.length) m.length := by
  rw [length_append, ← range'_append_1] at h
  exact append_inj h (by rw [length_range'])

/-! ## The first place of an element -/

section Places

variable [BEq α] [LawfulBEq α]

/-- The place of an element that does not occur before it is the first one. -/
theorem idxOf_eq_of_drop {n : Nat} (htake : a ∉ l.take n) (hdrop : (l.drop n).head? = some a) :
    l.idxOf a = n := by
  obtain ⟨rest, hrest⟩ := head?_eq_some_iff.1 hdrop
  have hlt : n < l.length := by
    by_contra hge
    rw [drop_eq_nil_of_le (Nat.le_of_not_lt hge)] at hrest
    cases hrest
  rw [← take_append_drop n l, hrest, idxOf_append_of_notMem htake, idxOf_cons_self,
    Nat.add_zero, length_take_of_le (Nat.le_of_lt hlt)]

/-- Put behind a list, an element is found there if it is not in the list. -/
theorem idxOf_concat : (l ++ [a]).idxOf a = l.idxOf a := by
  by_cases h : a ∈ l
  · rw [idxOf_append_of_mem h]
  · rw [idxOf_append_of_notMem h, idxOf_cons_self, idxOf_eq_length h, Nat.add_zero]

/-- An element stands in the same place as its image, if this is the image of no other. -/
theorem idxOf_map [BEq β] [LawfulBEq β] {f : α → β} (hf : ∀ b ∈ l, f b = f a → b = a) :
    (l.map f).idxOf (f a) = l.idxOf a := by
  induction l with
  | nil => rfl
  | cons b l ih =>
    rw [map_cons]
    by_cases h : b = a
    · rw [h, idxOf_cons_self, idxOf_cons_self]
    · rw [idxOf_cons_ne _ h, idxOf_cons_ne _ fun heq => h (hf b mem_cons_self heq),
        ih fun c hc => hf c (.tail _ hc)]

/-! ## Entries under a key -/

/-- An entry is found under its key if the key has no other. -/
theorem lookup_eq_some_iff_mem {k : α} {v : β} {l : List (α × β)}
    (h : ∀ v w, (k, v) ∈ l → (k, w) ∈ l → v = w) : l.lookup k = some v ↔ (k, v) ∈ l := by
  have hmem : ∀ {w}, l.lookup k = some w → (k, w) ∈ l := by
    intro w hw
    obtain ⟨before, after, rfl, -⟩ := lookup_eq_some_iff.1 hw
    simp
  refine ⟨hmem, fun hv => ?_⟩
  cases hl : l.lookup k with
  | none =>
    have hne := lookup_eq_none_iff.1 hl _ hv
    simp at hne
  | some w => rw [h v w hv (hmem hl)]

theorem lookup_zip_map {f : α → β} :
    (l.zip (l.map f)).lookup a = if a ∈ l then some (f a) else none := by
  induction l with
  | nil => rfl
  | cons b l ih =>
    rw [map_cons, zip_cons_cons]
    by_cases hab : a = b
    · subst hab
      rw [lookup_cons_self, if_pos mem_cons_self]
    · rw [lookup_cons, beq_false_of_ne hab, ih]
      simp [hab]

/-! ## The end of a list -/

theorem eq_of_mem_rtakeWhile (h : b ∈ l.rtakeWhile (· == a)) : b = a :=
  beq_iff_eq.1 (mem_rtakeWhile_imp (p := (· == a)) h)

/-- Nothing is dropped behind a part in which it does not occur. -/
theorem rdropWhile_append_of_not_mem (l : List α) (hm : a ∉ m) (hne : m ≠ []) :
    (l ++ m).rdropWhile (· == a) = l ++ m := by
  rw [rdropWhile_eq_self_iff]
  intro h
  rw [getLast_append_of_ne_nil h hne, beq_iff_eq]
  exact fun hlast => hm (hlast ▸ getLast_mem hne)

end Places

/-- What is dropped comes from behind an element that stays. -/
theorem rdropWhile_append_cons {p : α → Bool} (ha : p a = false) (l m : List α) :
    (l ++ a :: m).rdropWhile p = l ++ a :: m.rdropWhile p := by
  induction m using List.reverseRecOn with
  | nil => exact rdropWhile_concat_neg _ _ _ (Bool.eq_false_iff.1 ha)
  | append_singleton m b ih =>
    rw [← cons_append, ← append_assoc]
    by_cases hb : p b = true
    · rw [rdropWhile_concat_pos p _ _ hb, rdropWhile_concat_pos p _ _ hb, ih]
    · rw [rdropWhile_concat_neg p _ _ hb, rdropWhile_concat_neg p _ _ hb]
      simp

/-! ## Joined lists -/

/-- What stands in a joined list stands in the separator or in one of the parts. -/
theorem mem_intercalate {parts : List (List α)} (h : a ∈ intercalate m parts) :
    a ∈ m ∨ ∃ l ∈ parts, a ∈ l := by
  induction parts with
  | nil => cases h
  | cons l parts ih =>
    cases parts with
    | nil => exact .inr ⟨l, mem_cons_self, by rwa [intercalate_singleton] at h⟩
    | cons l' parts =>
      rw [intercalate_cons_cons, mem_append, mem_append] at h
      rcases h with (h | h) | h
      · exact .inr ⟨l, mem_cons_self, h⟩
      · exact .inl h
      · exact (ih h).imp_right fun ⟨l, hl, h⟩ => ⟨l, mem_cons_of_mem _ hl, h⟩

theorem mem_intercalate_of_mem {parts : List (List α)} (hl : l ∈ parts) (ha : a ∈ l) :
    a ∈ intercalate m parts := by
  induction parts with
  | nil => cases hl
  | cons l' parts ih =>
    cases parts with
    | nil => rwa [intercalate_singleton, ← mem_singleton.1 hl]
    | cons l'' parts =>
      rw [intercalate_cons_cons, mem_append, mem_append]
      rcases mem_cons.1 hl with rfl | hl
      · exact .inl (.inl ha)
      · exact .inr (ih hl)

/-! ## All members at once -/

/-- Each member has its counterpart if the whole list has. -/
theorem exists_forall₂_iff {R : α → β → Prop} :
    (∃ bs, Forall₂ R l bs) ↔ ∀ a ∈ l, ∃ b, R a b := by
  induction l with
  | nil => exact iff_of_true ⟨[], .nil⟩ nofun
  | cons a l ih =>
    rw [forall_mem_cons, ← ih]
    constructor
    · rintro ⟨_, _ | ⟨hb, hbs⟩⟩
      exact ⟨⟨_, hb⟩, _, hbs⟩
    · rintro ⟨⟨b, hb⟩, bs, hbs⟩
      exact ⟨b :: bs, .cons hb hbs⟩

/-- Finitely many bounds have a common one. -/
theorem exists_common_bound {p : α → Nat → Prop} (h : ∀ a ∈ l, ∃ bound, p a bound)
    (hmono : ∀ a m n, p a m → m ≤ n → p a n) : ∃ bound, ∀ a ∈ l, p a bound := by
  induction l with
  | nil => exact ⟨0, forall_mem_nil _⟩
  | cons a l ih =>
    obtain ⟨ha, hl⟩ := forall_mem_cons.1 h
    obtain ⟨m, hm⟩ := ha
    obtain ⟨n, hn⟩ := ih hl
    refine ⟨max m n, forall_mem_cons.2 ⟨hmono a _ _ hm (Nat.le_max_left m n), ?_⟩⟩
    exact fun b hb => hmono b _ _ (hn b hb) (Nat.le_max_right m n)

end List
