import Frontend.OrdMap
import Mathlib.Data.List.Nodup
import Mathlib.Logic.Basic

/-!
# Ordered sets and maps

What proofs need of ordered sets and maps beyond the laws that stand beside them. A set is
empty exactly if nothing belongs to it. `OrdMap.ofList` keeps the last of several entries
with one key: where all entries of a key have the same value, the map has that value
(`get?_ofList_eq`), and it has a value for the keys of the list only.
-/

namespace Frontend

namespace OrdSet

variable {α : Type u} [LT α] {s : OrdSet α}

theorem nodup [StrictTotal α] (s : OrdSet α) : s.toList.Nodup :=
  s.sorted.imp fun h => StrictTotal.ne_of_lt h

theorem isEmpty_iff : s.isEmpty = true ↔ ∀ a, ¬ a ∈ s := by
  rw [isEmpty, List.isEmpty_iff, List.eq_nil_iff_forall_not_mem]
  rfl

theorem isEmpty_eq_false_iff : s.isEmpty = false ↔ ∃ a, a ∈ s := by
  rw [← Bool.not_eq_true, isEmpty_iff, not_forall_not]

theorem eq_empty_iff : s = ∅ ↔ ∀ a, ¬ a ∈ s :=
  toList_inj.symm.trans List.eq_nil_iff_forall_not_mem

theorem exists_mem_of_ne_empty (h : s ≠ ∅) : ∃ a, a ∈ s := by
  rw [Ne, eq_empty_iff, not_forall_not] at h
  exact h

/-- A set with one member is the list of this member. -/
theorem toList_eq_singleton [DecidableLT α] [DecidableEq α] [StrictTotal α] {b : α}
    (h : ∀ a, a ∈ s ↔ a = b) : s.toList = [b] := by
  have heq : s = singleton b := by
    ext a
    rw [h, mem_singleton]
  rw [heq]
  rfl

theorem eq_of_size_le_one {b c : α} (h : s.size ≤ 1) (hb : b ∈ s) (hc : c ∈ s) : b = c := by
  obtain ⟨l, hl⟩ := s
  cases l with
  | nil => cases hb
  | cons x l =>
    cases l with
    | nil => exact (List.mem_singleton.1 hb).trans (List.mem_singleton.1 hc).symm
    | cons y l =>
      rw [size, List.length_cons, List.length_cons] at h
      omega

theorem size_eq_length [StrictTotal α] {l : List α} (hl : l.Nodup) (h : ∀ a, a ∈ s ↔ a ∈ l) :
    s.size = l.length :=
  ((List.perm_ext_iff_of_nodup s.nodup hl).2 h).length_eq

section Map

variable {β : Type v} [LT β] [DecidableLT α] [DecidableEq α] [StrictTotal α]
  {r : OrdSet β} {f : β → α}

theorem size_map_le : (r.map f).size ≤ r.size := by
  have hsubset : (r.map f).toList ⊆ r.toList.map f :=
    fun a ha => List.mem_map.2 (mem_map.1 (mem_def.2 ha))
  calc (r.map f).size ≤ (r.toList.map f).length := (nodup _).length_le_of_subset hsubset
    _ = r.size := List.length_map _

/-- A function that tells the members apart keeps their number. -/
theorem size_map [StrictTotal β] (hf : ∀ a ∈ r, ∀ b ∈ r, f a = f b → a = b) :
    (r.map f).size = r.size := by
  have hlength : (r.map f).size = (r.toList.map f).length :=
    size_eq_length (r.nodup.map_on hf) fun a => mem_map.trans List.mem_map.symm
  exact hlength.trans (List.length_map _)

end Map

end OrdSet

namespace OrdMap

variable {κ : Type u} {ν : Type v} [LT κ] [DecidableLT κ] [DecidableEq κ] [StrictTotal κ]

theorem exists_get?_foldl_insert {l : List (κ × ν)} {m : OrdMap κ ν} {k : κ}
    (h : k ∈ l.map Prod.fst ∨ ∃ v, m.get? k = some v) :
    ∃ v, (l.foldl (fun m e => m.insert e.1 e.2) m).get? k = some v := by
  induction l generalizing m with
  | nil =>
    rcases h with h | h
    · cases h
    · exact h
  | cons x l ih =>
    refine ih ?_
    rw [get?_insert]
    by_cases hk : k = x.1
    · exact .inr ⟨x.2, by rw [if_pos hk]⟩
    · rw [if_neg hk]
      rcases h with h | h
      · rw [List.map_cons, List.mem_cons] at h
        exact .inl (h.resolve_left hk)
      · exact .inr h

/-- A key that is not written keeps its value. -/
theorem get?_foldl_insert_of_not_mem {l : List (κ × ν)} {m : OrdMap κ ν} {k : κ}
    (h : ∀ v, (k, v) ∉ l) : (l.foldl (fun m e => m.insert e.1 e.2) m).get? k = m.get? k := by
  induction l generalizing m with
  | nil => rfl
  | cons x l ih =>
    have hk : k ≠ x.1 := fun heq => h x.2 (heq ▸ List.mem_cons_self)
    rw [List.foldl_cons, ih fun v hv => h v (.tail _ hv), get?_insert, if_neg hk]

/-- A new key whose entries agree gets their value. -/
theorem get?_foldl_insert_eq {l : List (κ × ν)} {m : OrdMap κ ν} {k : κ} {v : ν}
    (hm : m.get? k = none) (h : (k, v) ∈ l) (heq : ∀ w, (k, w) ∈ l → w = v) :
    (l.foldl (fun m e => m.insert e.1 e.2) m).get? k = some v := by
  obtain ⟨w, hw⟩ := exists_get?_foldl_insert (m := m) (.inl (List.mem_map.2 ⟨(k, v), h, rfl⟩))
  rcases get?_foldl_insert hw with hmem | hget
  · rw [hw, heq w hmem]
  · cases hm.symm.trans hget

/-- A key whose entries agree has their value. -/
theorem get?_ofList_eq {l : List (κ × ν)} {k : κ} {v : ν} (h : (k, v) ∈ l)
    (heq : ∀ w, (k, w) ∈ l → w = v) : (ofList l).get? k = some v :=
  get?_foldl_insert_eq get?_empty h heq

/-- A key without entries has no value. -/
theorem get?_ofList_eq_none {l : List (κ × ν)} {k : κ} (h : ∀ v, (k, v) ∉ l) :
    (ofList l).get? k = none :=
  (get?_foldl_insert_of_not_mem h).trans get?_empty

end OrdMap

end Frontend
