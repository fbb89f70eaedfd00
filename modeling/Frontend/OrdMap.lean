import Frontend.OrdSet

/-!
# Finite maps in increasing order of keys

An `OrdMap` keeps its entries in an array by strictly increasing key, so maps that answer
every look-up alike are the same value (`OrdMap.ext`). Look-ups search the array by halves;
`get?_eq_lookUp` and `toList_alter` say that they do the same as a pass over the list of
entries. `get?_insert` and `get?_alter` say what the two ways of writing an entry do to
look-ups, and `mem_toList_iff` ties look-ups to the entries.
-/

namespace Frontend

/-- A finite map from `κ` to `ν`, its entries by increasing key. -/
structure OrdMap (κ : Type u) (ν : Type v) [LT κ] where
  entries : Array (κ × ν)
  sorted : entries.toList.Pairwise (fun a b => a.1 < b.1)

namespace OrdMap

/-! ## Entry lists -/

section Lists

variable {κ : Type u} {ν : Type v} [LT κ] [DecidableLT κ] [DecidableEq κ]

/-- Looks a key up; the search ends at the first larger key. -/
def lookUp (k : κ) : List (κ × ν) → Option ν
  | [] => none
  | (k', v) :: rest => if k' < k then lookUp k rest else if k' = k then some v else none

/-- Writes `f` of the present value, if any, under `k`. -/
def write (k : κ) (f : Option ν → ν) : List (κ × ν) → List (κ × ν)
  | [] => [(k, f none)]
  | (k', v) :: rest =>
    if k' < k then (k', v) :: write k f rest
    else if k' = k then (k, f (some v)) :: rest
    else (k, f none) :: (k', v) :: rest

theorem fst_mem_write {k : κ} {f : Option ν → ν} {e : κ × ν} {l : List (κ × ν)}
    (h : e ∈ write k f l) : e.1 = k ∨ e ∈ l := by
  induction l with
  | nil =>
    rw [write, List.mem_singleton] at h
    exact .inl (by rw [h])
  | cons x l ih =>
    obtain ⟨k', v⟩ := x
    simp only [write] at h
    split at h
    · rcases List.mem_cons.1 h with rfl | h
      · exact .inr (by simp)
      · exact (ih h).imp id (List.mem_cons_of_mem _)
    · split at h
      · rcases List.mem_cons.1 h with rfl | h
        · exact .inl rfl
        · exact .inr (List.mem_cons_of_mem _ h)
      · rcases List.mem_cons.1 h with rfl | h
        · exact .inl rfl
        · exact .inr h

theorem lookUp_append {k : κ} {l r : List (κ × ν)} (h : ∀ e ∈ l, e.1 < k) :
    lookUp k (l ++ r) = lookUp k r := by
  induction l with
  | nil => rfl
  | cons e l ih =>
    rw [List.cons_append, lookUp, if_pos (h e List.mem_cons_self),
      ih fun e he => h e (List.mem_cons_of_mem _ he)]

theorem write_append {k : κ} {f : Option ν → ν} {l r : List (κ × ν)} (h : ∀ e ∈ l, e.1 < k) :
    write k f (l ++ r) = l ++ write k f r := by
  induction l with
  | nil => rfl
  | cons e l ih =>
    rw [List.cons_append, write, if_pos (h e List.mem_cons_self),
      ih fun e he => h e (List.mem_cons_of_mem _ he), List.cons_append]

variable [StrictTotal κ]

theorem lookUp_eq_some_iff {k : κ} {v : ν} {l : List (κ × ν)}
    (h : l.Pairwise (fun a b => a.1 < b.1)) : lookUp k l = some v ↔ (k, v) ∈ l := by
  induction l with
  | nil => simp [lookUp]
  | cons e l ih =>
    obtain ⟨k', v'⟩ := e
    obtain ⟨hx, hl⟩ := List.pairwise_cons.1 h
    simp only [lookUp, List.mem_cons, Prod.mk.injEq]
    split
    · next hlt =>
      rw [ih hl]
      exact ⟨.inr, fun h' => h'.resolve_left fun e => StrictTotal.lt_irrefl k (e.1 ▸ hlt)⟩
    · next hlt =>
      split
      · next e =>
        subst e
        rw [Option.some_inj]
        exact ⟨fun e => .inl ⟨rfl, e.symm⟩,
          fun h' => h'.elim (fun e => e.2.symm) fun hm => absurd (hx _ hm) hlt⟩
      · next hne =>
        refine ⟨fun e => absurd e (by simp), fun h' => ?_⟩
        rcases h' with e | hm
        · exact absurd e.1.symm hne
        · exact absurd (hx _ hm) hlt

theorem pairwise_write {k : κ} {f : Option ν → ν} {l : List (κ × ν)}
    (h : l.Pairwise (fun a b => a.1 < b.1)) :
    (write k f l).Pairwise (fun a b => a.1 < b.1) := by
  induction l with
  | nil => simp [write]
  | cons x l ih =>
    obtain ⟨k', v⟩ := x
    obtain ⟨hx, hl⟩ := List.pairwise_cons.1 h
    simp only [write]
    split
    · next hlt =>
      refine List.pairwise_cons.2 ⟨fun e he => ?_, ih hl⟩
      rcases fst_mem_write he with he | he
      · exact he ▸ hlt
      · exact hx e he
    · next hlt =>
      split
      · next e =>
        subst e
        exact List.pairwise_cons.2 ⟨hx, hl⟩
      · next hne =>
        have hk : k < k' := StrictTotal.lt_of_not_lt_of_ne hlt hne
        refine List.pairwise_cons.2 ⟨fun e he => ?_, h⟩
        rcases List.mem_cons.1 he with rfl | he
        · exact hk
        · exact StrictTotal.lt_trans hk (hx e he)

theorem lookUp_eq_none_of_lt {k : κ} {l : List (κ × ν)} (h : ∀ e ∈ l, k < e.1) :
    lookUp k l = none := by
  cases l with
  | nil => rfl
  | cons e l =>
    have hk : k < e.1 := h e (by simp)
    simp only [lookUp]
    rw [if_neg (StrictTotal.lt_asymm hk), if_neg (fun e => StrictTotal.ne_of_lt hk e.symm)]

theorem lookUp_write {k k' : κ} {f : Option ν → ν} {l : List (κ × ν)}
    (h : l.Pairwise (fun a b => a.1 < b.1)) :
    lookUp k' (write k f l) = if k' = k then some (f (lookUp k l)) else lookUp k' l := by
  induction l with
  | nil => grind [write, lookUp, StrictTotal.lt_irrefl, StrictTotal.ne_of_lt]
  | cons x l ih =>
    obtain ⟨x, v⟩ := x
    obtain ⟨hx, hl⟩ := List.pairwise_cons.1 h
    have ih := ih hl
    rcases StrictTotal.lt_trichotomy x k with hk | hk | hk
    · rw [write, if_pos hk, lookUp, lookUp, lookUp, if_pos hk, ih]
      by_cases e : k' = k
      · subst e; simp [hk]
      · simp [e]
    · subst hk
      have hn : ¬ x < x := StrictTotal.lt_irrefl x
      rw [write, if_neg hn, if_pos rfl, lookUp, lookUp, lookUp, if_neg hn, if_pos rfl]
      by_cases e : k' = x
      · subst e; simp [hn]
      · have e' : ¬ x = k' := fun h => e h.symm
        simp [e, e']
    · have hn : ¬ x < k := StrictTotal.lt_asymm hk
      have hne : ¬ x = k := fun e => StrictTotal.ne_of_lt hk e.symm
      rw [write, if_neg hn, if_neg hne]
      have hnone : lookUp k ((x, v) :: l) = none := by rw [lookUp, if_neg hn, if_neg hne]
      rw [hnone]
      by_cases e : k' = k
      · subst e
        rw [lookUp, if_neg (StrictTotal.lt_irrefl k'), if_pos rfl, if_pos rfl]
      · have e' : ¬ k = k' := fun h => e h.symm
        rw [lookUp, if_neg e, if_neg e']
        by_cases hlt : k < k'
        · rw [if_pos hlt]
        · rw [if_neg hlt]
          have hk' : k' < k := StrictTotal.lt_of_not_lt_of_ne hlt e'
          exact (lookUp_eq_none_of_lt fun e he => by
            rcases List.mem_cons.1 he with rfl | he
            · exact StrictTotal.lt_trans hk' hk
            · exact StrictTotal.lt_trans (StrictTotal.lt_trans hk' hk) (hx e he)).symm

end Lists

/-! ## Search by halves -/

section Search

variable {κ : Type u} {ν : Type v} [LT κ] [DecidableLT κ] [DecidableEq κ]

/-- Searches the entries from `lo` up to `hi` for the first whose key is not below `k`. Each
unit of `steps` halves the range, so its length is more than enough of them. -/
def seek (k : κ) (a : Array (κ × ν)) : Nat → Nat → Nat → Nat
  | 0, lo, _ => lo
  | steps + 1, lo, hi =>
    if lo < hi then
      let mid := (lo + hi) / 2
      match a[mid]? with
      | some e => if e.1 < k then seek k a steps (mid + 1) hi else seek k a steps lo mid
      | none => lo
    else lo

/-- The number of entries with keys below `k`. -/
def position (k : κ) (a : Array (κ × ν)) : Nat := seek k a a.size 0 a.size

/-- Looks a key up where it would have to be. -/
def find? (k : κ) (a : Array (κ × ν)) : Option ν :=
  match a[position k a]? with
  | some (k', v) => if k' = k then some v else none
  | none => none

/-- Writes `f` of the present value, if any, under `k`. -/
def writeAt (k : κ) (f : Option ν → ν) (a : Array (κ × ν)) : Array (κ × ν) :=
  let i := position k a
  if h : i < a.size then
    if a[i].1 = k then a.set i (k, f (some a[i].2))
    else a.extract 0 i ++ #[(k, f none)] ++ a.extract i a.size
  else a.push (k, f none)

theorem drop_eq_cons {α : Type w} {a : Array α} {i : Nat} (h : i < a.size) :
    a.toList.drop i = a[i] :: a.toList.drop (i + 1) := by
  rw [List.drop_eq_getElem_cons (by rw [Array.length_toList]; exact h), Array.getElem_toList]

omit [DecidableLT κ] [DecidableEq κ] in
theorem fst_lt_of_lt {a : Array (κ × ν)} (hs : a.toList.Pairwise (fun a b => a.1 < b.1))
    {i j : Nat} (hj : j < a.size) (hij : i < j) : a[i].1 < a[j].1 := by
  have h := List.pairwise_iff_getElem.1 hs i j
    (by rw [Array.length_toList]; omega) (by rw [Array.length_toList]; exact hj) hij
  rwa [Array.getElem_toList, Array.getElem_toList] at h

variable [StrictTotal κ]

omit [DecidableEq κ] in
/-- The search ends where the keys below `k` do, if they are known to reach `lo` at least
and `hi` at most. -/
theorem seek_bounds {k : κ} {a : Array (κ × ν)} (hs : a.toList.Pairwise (fun a b => a.1 < b.1))
    {steps lo hi : Nat} (hsteps : hi ≤ lo + steps) (hlo : lo ≤ hi) (hhi : hi ≤ a.size)
    (hbelow : ∀ j (h : j < a.size), j < lo → a[j].1 < k)
    (habove : ∀ j (h : j < a.size), hi ≤ j → ¬ a[j].1 < k) :
    ∀ j (h : j < a.size), a[j].1 < k ↔ j < seek k a steps lo hi := by
  induction steps generalizing lo hi with
  | zero =>
    intro j h
    rw [seek]
    have heq : lo = hi := by omega
    subst heq
    refine ⟨fun hk => ?_, fun hj => hbelow j h hj⟩
    rcases Nat.lt_or_ge j lo with hj | hj
    · exact hj
    · exact absurd hk (habove j h hj)
  | succ steps ih =>
    intro j h
    rw [seek]
    split
    · next hlt =>
      have hmid : (lo + hi) / 2 < a.size := by omega
      simp only [Array.getElem?_eq_getElem hmid]
      split
      · next hk =>
        refine ih (by omega) (by omega) hhi (fun i hi' hlt' => ?_) habove j h
        rcases Nat.lt_or_ge i ((lo + hi) / 2) with hi'' | hi''
        · exact StrictTotal.lt_trans (fst_lt_of_lt hs hmid hi'') hk
        · have heq : i = (lo + hi) / 2 := by omega
          subst heq
          exact hk
      · next hk =>
        refine ih (by omega) (by omega) (by omega) hbelow (fun i hi' hle hk' => hk ?_) j h
        rcases Nat.lt_or_ge ((lo + hi) / 2) i with hi'' | hi''
        · exact StrictTotal.lt_trans (fst_lt_of_lt hs hi' hi'') hk'
        · have heq : i = (lo + hi) / 2 := by omega
          subst heq
          exact hk'
    · next hlt =>
      have heq : lo = hi := by omega
      subst heq
      refine ⟨fun hk => ?_, fun hj => hbelow j h hj⟩
      rcases Nat.lt_or_ge j lo with hj | hj
      · exact hj
      · exact absurd hk (habove j h hj)

omit [DecidableEq κ] in
theorem lt_position_iff {k : κ} {a : Array (κ × ν)}
    (hs : a.toList.Pairwise (fun a b => a.1 < b.1)) (j : Nat) (h : j < a.size) :
    a[j].1 < k ↔ j < position k a :=
  seek_bounds hs (by omega) (by omega) (by omega) (fun _ _ h => by omega)
    (fun _ _ _ => by omega) j h

omit [DecidableEq κ] in
/-- The entries before the position of a key have smaller keys. -/
theorem lt_of_mem_take {k : κ} {a : Array (κ × ν)}
    (hs : a.toList.Pairwise (fun a b => a.1 < b.1)) :
    ∀ e ∈ a.toList.take (position k a), e.1 < k := by
  intro e he
  obtain ⟨j, hj, rfl⟩ := List.mem_take_iff_getElem.1 he
  rw [Array.length_toList] at hj
  rw [Array.getElem_toList]
  exact (lt_position_iff hs j (by omega)).2 (by omega)

theorem find?_eq_lookUp {k : κ} {a : Array (κ × ν)}
    (hs : a.toList.Pairwise (fun a b => a.1 < b.1)) : find? k a = lookUp k a.toList := by
  have hsplit : lookUp k a.toList = lookUp k (a.toList.drop (position k a)) := by
    have h := lookUp_append (r := a.toList.drop (position k a)) (lt_of_mem_take (k := k) hs)
    rwa [List.take_append_drop] at h
  rw [hsplit, find?]
  by_cases h : position k a < a.size
  · have hn : ¬ a[position k a].1 < k := fun hk =>
      Nat.lt_irrefl _ ((lt_position_iff hs _ h).1 hk)
    rw [drop_eq_cons h, Array.getElem?_eq_getElem h, lookUp, if_neg hn]
  · rw [Array.getElem?_eq_none (by omega),
      List.drop_eq_nil_of_le (by rw [Array.length_toList]; omega), lookUp]

theorem toList_writeAt {k : κ} {f : Option ν → ν} {a : Array (κ × ν)}
    (hs : a.toList.Pairwise (fun a b => a.1 < b.1)) :
    (writeAt k f a).toList = write k f a.toList := by
  have hsplit : write k f a.toList =
      a.toList.take (position k a) ++ write k f (a.toList.drop (position k a)) := by
    have h := write_append (f := f) (r := a.toList.drop (position k a)) (lt_of_mem_take (k := k) hs)
    rwa [List.take_append_drop] at h
  rw [hsplit, writeAt]
  by_cases h : position k a < a.size
  · have hn : ¬ a[position k a].1 < k := fun hk =>
      Nat.lt_irrefl _ ((lt_position_iff hs _ h).1 hk)
    rw [dif_pos h, drop_eq_cons h, write, if_neg hn]
    split
    · rw [Array.toList_set, List.set_eq_take_append_cons_drop,
        if_pos (by rw [Array.length_toList]; exact h)]
    · rw [Array.toList_append, Array.toList_append, Array.toList_extract, Array.toList_extract,
        List.extract_eq_take_drop, List.extract_eq_take_drop, Nat.sub_zero, List.drop_zero,
        List.take_of_length_le (l := a.toList.drop _) (by simp), drop_eq_cons h]
      simp
  · rw [dif_neg h, Array.toList_push, List.take_of_length_le (by rw [Array.length_toList]; omega),
      List.drop_eq_nil_of_le (by rw [Array.length_toList]; omega), write]

end Search

section Uniqueness

variable {κ : Type u} {ν : Type v} [LT κ] [StrictTotal κ]

/-- Two entry lists in key order with the same entries are the same list. -/
theorem eq_of_pairwise {l r : List (κ × ν)} (hl : l.Pairwise (fun a b => a.1 < b.1))
    (hr : r.Pairwise (fun a b => a.1 < b.1)) (h : ∀ e, e ∈ l ↔ e ∈ r) : l = r := by
  induction l generalizing r with
  | nil =>
    cases r with
    | nil => rfl
    | cons y r => exact absurd ((h y).2 (by simp)) (by simp)
  | cons x l ih =>
    cases r with
    | nil => exact absurd ((h x).1 (by simp)) (by simp)
    | cons y r =>
      obtain ⟨hx, hlt⟩ := List.pairwise_cons.1 hl
      obtain ⟨hy, hrt⟩ := List.pairwise_cons.1 hr
      have hxy : x = y := by
        rcases List.mem_cons.1 ((h x).1 (by simp)) with e | hm
        · exact e
        · rcases List.mem_cons.1 ((h y).2 (by simp)) with e | hm'
          · exact e.symm
          · exact absurd (hx y hm') (StrictTotal.lt_asymm (hy x hm))
      subst hxy
      congr 1
      refine ih hlt hrt fun a => ⟨fun ha => ?_, fun ha => ?_⟩
      · exact (List.mem_cons.1 ((h a).1 (by simp [ha]))).resolve_left
          fun e => StrictTotal.lt_irrefl x.1 (e ▸ hx a ha)
      · exact (List.mem_cons.1 ((h a).2 (by simp [ha]))).resolve_left
          fun e => StrictTotal.lt_irrefl x.1 (e ▸ hy a ha)

end Uniqueness

/-! ## Maps -/

section Basic

variable {κ : Type u} {ν : Type v} [LT κ]

/-- The entries, in the order of their keys. -/
def toList (m : OrdMap κ ν) : List (κ × ν) := m.entries.toList

theorem pairwise_toList (m : OrdMap κ ν) : m.toList.Pairwise (fun a b => a.1 < b.1) := m.sorted

theorem toList_inj {m n : OrdMap κ ν} : m.toList = n.toList ↔ m = n := by
  obtain ⟨a, ha⟩ := m
  obtain ⟨b, hb⟩ := n
  rw [mk.injEq]
  exact Array.toList_inj

instance [DecidableEq κ] [DecidableEq ν] : DecidableEq (OrdMap κ ν) :=
  fun _ _ => decidable_of_iff _ toList_inj

/-- The map without entries. -/
def empty : OrdMap κ ν := ⟨#[], .nil⟩

instance : EmptyCollection (OrdMap κ ν) := ⟨empty⟩

instance : Inhabited (OrdMap κ ν) := ⟨empty⟩

/-- The keys, in increasing order. -/
def keys (m : OrdMap κ ν) : OrdSet κ :=
  ⟨m.toList.map Prod.fst, List.pairwise_map.2 m.pairwise_toList⟩

/-- The values, in the order of their keys. -/
def values (m : OrdMap κ ν) : List ν := m.toList.map Prod.snd

/-- The number of entries. -/
def size (m : OrdMap κ ν) : Nat := m.entries.size

end Basic

section Operations

variable {κ : Type u} {ν : Type v} [LT κ] [DecidableLT κ] [DecidableEq κ]

/-- The value under a key. -/
def get? (m : OrdMap κ ν) (k : κ) : Option ν := find? k m.entries

/-- The value under a key, or `default` if it has none. -/
def getD (m : OrdMap κ ν) (k : κ) (default : ν) : ν := (m.get? k).getD default

/-- Tells whether a key has a value. -/
def contains (m : OrdMap κ ν) (k : κ) : Bool := (m.get? k).isSome

@[simp] theorem get?_empty {k : κ} : (∅ : OrdMap κ ν).get? k = none := rfl

variable [StrictTotal κ]

/-- Writes `f` of the present value, if any, under `k`. -/
def alter (m : OrdMap κ ν) (k : κ) (f : Option ν → ν) : OrdMap κ ν :=
  ⟨writeAt k f m.entries, by
    rw [toList_writeAt m.sorted]
    exact pairwise_write m.sorted⟩

/-- Puts `v` under `k`, in place of what was there. -/
def insert (m : OrdMap κ ν) (k : κ) (v : ν) : OrdMap κ ν := m.alter k fun _ => v

/-- The map with the given entries; of two with one key the later counts. -/
def ofList (l : List (κ × ν)) : OrdMap κ ν := l.foldl (fun m e => m.insert e.1 e.2) ∅

theorem get?_eq_lookUp {m : OrdMap κ ν} {k : κ} : m.get? k = lookUp k m.toList :=
  find?_eq_lookUp m.sorted

theorem toList_alter {m : OrdMap κ ν} {k : κ} {f : Option ν → ν} :
    (m.alter k f).toList = write k f m.toList :=
  toList_writeAt m.sorted

theorem mem_toList_iff {m : OrdMap κ ν} {k : κ} {v : ν} :
    (k, v) ∈ m.toList ↔ m.get? k = some v := by
  rw [get?_eq_lookUp]
  exact (lookUp_eq_some_iff m.sorted).symm

theorem get?_alter {m : OrdMap κ ν} {k k' : κ} {f : Option ν → ν} :
    (m.alter k f).get? k' = if k' = k then some (f (m.get? k)) else m.get? k' := by
  rw [get?_eq_lookUp, get?_eq_lookUp, get?_eq_lookUp, toList_alter]
  exact lookUp_write m.sorted

theorem get?_insert {m : OrdMap κ ν} {k k' : κ} {v : ν} :
    (m.insert k v).get? k' = if k' = k then some v else m.get? k' :=
  get?_alter

theorem mem_keys {m : OrdMap κ ν} {k : κ} : k ∈ m.keys ↔ ∃ v, m.get? k = some v := by
  rw [OrdSet.mem_def, keys, List.mem_map]
  constructor
  · rintro ⟨⟨k, v⟩, h, rfl⟩
    exact ⟨v, mem_toList_iff.1 h⟩
  · rintro ⟨v, h⟩
    exact ⟨(k, v), mem_toList_iff.2 h, rfl⟩

@[ext] theorem ext {m n : OrdMap κ ν} (h : ∀ k, m.get? k = n.get? k) : m = n :=
  toList_inj.1 (eq_of_pairwise m.sorted n.sorted fun (k, v) => by
    rw [mem_toList_iff, mem_toList_iff, h])

theorem get?_foldl_insert {l : List (κ × ν)} {m : OrdMap κ ν} {k : κ} {v : ν}
    (h : (l.foldl (fun m e => m.insert e.1 e.2) m).get? k = some v) :
    (k, v) ∈ l ∨ m.get? k = some v := by
  induction l generalizing m with
  | nil => exact .inr h
  | cons x l ih =>
    rcases ih h with h' | h'
    · exact .inl (List.mem_cons_of_mem _ h')
    · rw [get?_insert] at h'
      split at h'
      · next e =>
        rw [e, ← Option.some.inj h']
        exact .inl List.mem_cons_self
      · exact .inr h'

/-- What a map built from a list holds was in the list. -/
theorem mem_of_get?_ofList {l : List (κ × ν)} {k : κ} {v : ν}
    (h : (ofList l).get? k = some v) : (k, v) ∈ l := by
  rcases get?_foldl_insert h with h | h
  · exact h
  · simp at h

end Operations

end OrdMap

end Frontend
