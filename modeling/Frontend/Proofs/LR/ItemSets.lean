import Frontend.LR.Item
import Frontend.Proofs.Exploration

/-!
# Closed item sets

`ItemSet.mem_closure` says that a closure holds what the items bring with them, directly or
through others. An item with its dot at the start may have come in that way; any other item
of `goto` is an item whose dot was moved (`mem_of_advance_mem_goto`).
-/

namespace Frontend

/-- The item belongs to one of the productions, and its dot lies in the body or at its end. -/
def Item.Fits (ps : List Production) (i : Item) : Prop :=
  ∃ p, ps[i.production]? = some p ∧ i.dot ≤ p.body.length

namespace Item

variable {ps : List Production} {i : Item} {symbol : String}

theorem next?_eq_some_iff :
    i.next? ps = some symbol ↔ ∃ p, ps[i.production]? = some p ∧ p.body[i.dot]? = some symbol := by
  rw [next?, Option.bind_eq_some_iff]

theorem next?_eq_none_iff (h : i.Fits ps) :
    i.next? ps = none ↔ ∃ p, ps[i.production]? = some p ∧ i.dot = p.body.length := by
  obtain ⟨p, hp, hdot⟩ := h
  rw [next?, hp, Option.bind_some, List.getElem?_eq_none_iff]
  constructor
  · intro h
    exact ⟨p, rfl, by omega⟩
  · intro h
    obtain ⟨q, hq, h⟩ := h
    obtain rfl := Option.some.inj hq
    omega

/-- A production is complete with one place of the dot only. -/
theorem dot_eq_of_next?_eq_none {j : Item} (hi : i.Fits ps) (hj : j.Fits ps)
    (hnext : i.next? ps = none) (hnext' : j.next? ps = none)
    (h : i.production = j.production) : i.dot = j.dot := by
  obtain ⟨p, hp, hdot⟩ := (next?_eq_none_iff hi).1 hnext
  obtain ⟨p', hp', hdot'⟩ := (next?_eq_none_iff hj).1 hnext'
  rw [h, hp', Option.some.injEq] at hp
  rw [hdot, hdot', hp]

/-- A dot in front of a symbol can be moved over it. -/
theorem fits_advance (h : i.next? ps = some symbol) : i.advance.Fits ps := by
  obtain ⟨p, hp, hsymbol⟩ := next?_eq_some_iff.1 h
  obtain ⟨hlt, -⟩ := List.getElem?_eq_some_iff.1 hsymbol
  exact ⟨p, hp, hlt⟩

end Item

namespace ItemSet

variable {ps : List Production} {items : ItemSet} {symbol : String} {i j : Item}

theorem mem_opening :
    i ∈ opening ps symbol ↔
      i.dot = 0 ∧ ∃ p, ps[i.production]? = some p ∧ p.head = symbol := by
  rw [opening, List.mem_filterMap]
  constructor
  · intro h
    obtain ⟨n, -, h⟩ := h
    split at h
    · next p hp =>
      split at h
      · next hhead =>
        obtain rfl := Option.some.inj h
        exact ⟨rfl, p, hp, hhead⟩
      · cases h
    · cases h
  · intro h
    obtain ⟨hdot, p, hp, hhead⟩ := h
    -- Every production has a number below their count, so it is looked at.
    obtain ⟨hlt, -⟩ := List.getElem?_eq_some_iff.1 hp
    refine ⟨i.production, List.mem_range.2 hlt, ?_⟩
    rw [hp]
    dsimp only
    rw [if_pos hhead, ← hdot]

theorem mem_predicted : j ∈ predicted ps i ↔ ∃ symbol, i.next? ps = some symbol ∧
    j ∈ opening ps symbol := by
  unfold predicted
  split
  · next symbol h =>
    constructor
    · exact fun hj => ⟨symbol, h, hj⟩
    · intro h
      obtain ⟨symbol', h', hj⟩ := h
      rw [h] at h'
      rwa [Option.some.inj h']
  · next h =>
    constructor
    · intro hj
      cases hj
    · intro h
      obtain ⟨symbol', h', -⟩ := h
      rw [h] at h'
      cases h'

/-- Only the given items and items that open a production can be brought in. -/
theorem atMost_reachable :
    AtMost (items.size + ps.length) (Reachable (predicted ps) items.toList) := by
  have h := atMost_of_mem (p := Reachable (predicted ps) items.toList)
    (items.toList ++ (List.range ps.length).map fun n => ⟨n, 0⟩) fun i hi => ?_
  · rwa [List.length_append, List.length_map, List.length_range] at h
  · refine hi.induction (fun i hi => List.mem_append_left _ hi) fun i j _ hj => ?_
    obtain ⟨symbol, -, hj⟩ := mem_predicted.1 hj
    obtain ⟨hdot, p, hp, -⟩ := mem_opening.1 hj
    obtain ⟨hlt, -⟩ := List.getElem?_eq_some_iff.1 hp
    refine List.mem_append_right _ (List.mem_map.2 ⟨j.production, List.mem_range.2 hlt, ?_⟩)
    rw [← hdot]

theorem mem_closure : i ∈ closure ps items ↔ Reachable (predicted ps) items.toList i := by
  rw [closure, OrdSet.mem_ofList, mem_explore atMost_reachable]

theorem mem_closure_of_mem (h : i ∈ items) : i ∈ closure ps items :=
  mem_closure.2 (.of_mem h)

/-- With an item, the productions of the symbol after its dot belong to a closure. -/
theorem opening_mem_closure {n : Nat} {p : Production} (h : i ∈ closure ps items)
    (hnext : i.next? ps = some p.head) (hp : ps[n]? = some p) : ⟨n, 0⟩ ∈ closure ps items := by
  refine mem_closure.2 ((mem_closure.1 h).step (mem_predicted.2 ⟨p.head, hnext, ?_⟩))
  exact mem_opening.2 ⟨rfl, p, hp, rfl⟩

/-- What a closure adds opens a production of a symbol after a dot. -/
theorem closure_cases (h : i ∈ closure ps items) :
    i ∈ items ∨ i.dot = 0 ∧ ∃ p j, ps[i.production]? = some p ∧ j ∈ closure ps items ∧
      j.next? ps = some p.head := by
  obtain ⟨s, hs, hr⟩ := mem_closure.1 h
  cases hr.cases_tail with
  | inl heq => exact .inl (heq ▸ hs)
  | inr hlast =>
    obtain ⟨j, hj, hi⟩ := hlast
    obtain ⟨symbol, hnext, hi⟩ := mem_predicted.1 hi
    obtain ⟨hdot, p, hp, rfl⟩ := mem_opening.1 hi
    exact .inr ⟨hdot, p, j, hp, mem_closure.2 ⟨s, hs, hj⟩, hnext⟩

theorem mem_moved {symbol : String} :
    i ∈ OrdSet.map Item.advance (items.filter fun i => i.next? ps == some symbol) ↔
      ∃ j ∈ items, j.next? ps = some symbol ∧ j.advance = i := by
  rw [OrdSet.mem_map]
  constructor
  · intro h
    obtain ⟨j, hj, h⟩ := h
    obtain ⟨hj, hnext⟩ := OrdSet.mem_filter.1 hj
    exact ⟨j, hj, eq_of_beq hnext, h⟩
  · intro h
    obtain ⟨j, hj, hnext, h⟩ := h
    exact ⟨j, OrdSet.mem_filter.2 ⟨hj, by rw [hnext]; exact beq_self_eq_true _⟩, h⟩

/-- A dot in front of a symbol is moved over it. -/
theorem advance_mem_goto (h : i ∈ items) (hnext : i.next? ps = some symbol) :
    i.advance ∈ goto ps items symbol :=
  mem_closure_of_mem (mem_moved.2 ⟨i, h, hnext, rfl⟩)

theorem goto_cases (h : i ∈ goto ps items symbol) :
    (∃ j ∈ items, j.next? ps = some symbol ∧ j.advance = i) ∨
      i.dot = 0 ∧ ∃ p j, ps[i.production]? = some p ∧ j ∈ goto ps items symbol ∧
        j.next? ps = some p.head :=
  (closure_cases h).imp_left mem_moved.1

/-- A dot that is not at the start was moved. -/
theorem mem_of_advance_mem_goto (h : i.advance ∈ goto ps items symbol) :
    i ∈ items ∧ i.next? ps = some symbol := by
  rcases goto_cases h with ⟨j, hj, hnext, heq⟩ | ⟨hdot, -⟩
  · have hij : j = i := by
      cases i
      cases j
      simpa [Item.advance] using heq
    exact ⟨hij ▸ hj, hij ▸ hnext⟩
  · cases hdot

/-! ## All items of the productions -/

theorem fits_of_mem_closure (h : ∀ i ∈ items, i.Fits ps) : ∀ i ∈ closure ps items, i.Fits ps := by
  intro i hi
  rcases closure_cases hi with hi | ⟨hdot, p, -, hp, -⟩
  · exact h i hi
  · exact ⟨p, hp, by omega⟩

theorem fits_of_mem_goto : ∀ i ∈ goto ps items symbol, i.Fits ps := by
  refine fits_of_mem_closure fun i hi => ?_
  obtain ⟨j, -, hnext, rfl⟩ := mem_moved.1 hi
  exact Item.fits_advance hnext

theorem mem_nextSymbols :
    symbol ∈ items.nextSymbols ps ↔ ∃ i ∈ items, i.next? ps = some symbol := by
  rw [nextSymbols, mem_newcomers, List.mem_filterMap]
  exact and_iff_left List.not_mem_nil

end ItemSet

end Frontend
