import Frontend.Proofs.LR.Cells

/-!
# Which action wins a cell

Actions that compete for a cell have an order of preference, `Action.place`: a move comes before
acceptance, and this before the reductions in the order of their productions. `Action.InTurn` says
in which order they may come: what comes later is the same action again, a shift where only
reductions were, or a reduction that is preferred less than all before it.

`Cell.Settled` says that a cell holds the action preferred to all that have come, and that every
other one was dropped in one conflict. What that conflict calls kept is still there, or it is a
reduction that a shift has displaced since, and another conflict says so. An action that comes in
turn keeps all of this (`Settled.write`), so it holds when all have come (`settled_foldl`). Since a
row is written cell by cell, it holds of each cell of a row whatever comes for the others.
-/

namespace Frontend

namespace Action

variable {a b d : Action} {as : List Action} {n : Nat}

/-- The place of an action in the order of preference. -/
def place : Action → Nat
  | shift _ | goto _ => 0
  | accept => 1
  | reduce n => n + 2

/-- No action with the property is preferred to this one. -/
def Preferred (p : Action → Prop) (a : Action) : Prop :=
  p a ∧ ∀ b, p b → a.place ≤ b.place

theorem preferred_append_of_lt (ha : a.Preferred (· ∈ as)) (hlt : a.place < b.place) :
    d.Preferred (· ∈ as ++ [b]) ↔ d.Preferred (· ∈ as) := by
  simp only [Preferred, List.mem_append, List.mem_singleton]
  constructor
  · intro h
    obtain ⟨hd | rfl, hle⟩ := h
    · exact ⟨hd, fun e he => hle e (.inl he)⟩
    · exact absurd (hle a (.inl ha.1)) (Nat.not_le_of_lt hlt)
  · intro h
    refine ⟨.inl h.1, ?_⟩
    rintro e (he | rfl)
    · exact h.2 e he
    · exact (h.2 a ha.1).trans hlt.le

theorem preferred_append_of_gt (ha : a.Preferred (· ∈ as)) (hlt : b.place < a.place) :
    d.Preferred (· ∈ as ++ [b]) ↔ d = b := by
  simp only [Preferred, List.mem_append, List.mem_singleton]
  constructor
  · intro h
    obtain ⟨hd | rfl, hle⟩ := h
    · exact absurd ((ha.2 d hd).trans (hle b (.inr rfl))) (Nat.not_le_of_lt hlt)
    · rfl
  · rintro rfl
    refine ⟨.inr rfl, ?_⟩
    rintro e (he | rfl)
    · exact hlt.le.trans (ha.2 e he)
    · exact le_rfl

/-- The second action may come for a cell after the first. -/
inductive InTurn : Action → Action → Prop
  | again {a : Action} (ha : a.place ≤ 1) : InTurn a a
  | displaces (n r : Nat) : InTurn (.reduce n) (.shift r)
  | refused {a : Action} {n : Nat} (ha : a.place < (reduce n).place) : InTurn a (.reduce n)

theorem InTurn.place_lt (h : InTurn a (.reduce n)) : a.place < (reduce n).place := by
  cases h with
  | again ha => exact absurd ha (by simp [place])
  | refused ha => exact ha

end Action

/-! ## Settled cells -/

namespace Row.Cell

variable {q : Nat} {x : String} {a b : Action} {as : List Action} {c : Cell}

/-- The cell of the state `q` and the symbol `x` after some actions have come for it. -/
structure Settled (q : Nat) (x : String) (as : List Action) (c : Cell) : Prop where
  /-- It holds the action that is preferred to all others. -/
  action?_iff : ∀ a, c.action? = some a ↔ a.Preferred (· ∈ as)
  eq_nil : c.action? = none → as = []
  /-- The others have been dropped. -/
  dropped_iff : ∀ a, a ∈ c.log.map Conflict.dropped ↔ a ∈ as ∧ c.action? ≠ some a
  nodup : (c.log.map Conflict.dropped).Nodup
  /-- What was kept is still there, if not a shift has come for the cell of a reduction. -/
  kept : ∀ e ∈ c.log, c.action? = some e.kept ∨
    ∃ n r, e.kept = .reduce n ∧ c.action? = some (.shift r) ∧ ⟨q, x, .shift r, .reduce n⟩ ∈ c.log

theorem settled_nil : Settled q x [] ⟨none, []⟩ where
  action?_iff := by simp [Action.Preferred]
  eq_nil _ := rfl
  dropped_iff := by simp
  nodup := List.nodup_nil
  kept := by simp

theorem Settled.log_eq_nil (h : Settled q x [] c) : c.log = [] := by
  rw [← List.map_eq_nil_iff (f := Conflict.dropped), List.eq_nil_iff_forall_not_mem]
  exact fun a ha => List.not_mem_nil ((h.dropped_iff a).1 ha).1

theorem Settled.first (h : Settled q x [] c) : Settled q x [b] ⟨some b, c.log⟩ := by
  rw [h.log_eq_nil]
  exact ⟨by simp [Action.Preferred, eq_comm], by simp, by simp [eq_comm], List.nodup_nil, by simp⟩

/-- An action that is there already changes nothing. -/
theorem Settled.again (h : Settled q x as c) (hb : b ∈ as) : Settled q x (as ++ [b]) c := by
  have hmem : ∀ a, a ∈ as ++ [b] ↔ a ∈ as := by
    intro a
    simp only [List.mem_append, List.mem_singleton, or_iff_left_iff_imp]
    exact fun ha => ha ▸ hb
  refine ⟨fun a => ?_, fun hnone => ?_, fun a => ?_, h.nodup, h.kept⟩
  · simp only [Action.Preferred, hmem, h.action?_iff]
  · rw [h.eq_nil hnone] at hb
    cases hb
  · rw [hmem, h.dropped_iff]

/-- A reduction that is preferred less than all before it is dropped. -/
theorem Settled.refused {n : Nat} (h : Settled q x as c) (ha : c.action? = some a)
    (hlt : ∀ a ∈ as, a.place < (Action.reduce n).place) :
    Settled q x (as ++ [.reduce n]) ⟨some a, c.log ++ [⟨q, x, a, .reduce n⟩]⟩ := by
  have hpref := (h.action?_iff a).1 ha
  have hn : Action.reduce n ∉ as := fun hn => Nat.lt_irrefl _ (hlt _ hn)
  have hne : a ≠ .reduce n := fun heq => hn (heq ▸ hpref.1)
  have hdropped := h.dropped_iff
  rw [ha] at hdropped
  refine ⟨fun b => ?_, nofun, fun b => ?_, ?_, fun e he => ?_⟩
  · rw [Action.preferred_append_of_lt hpref (hlt a hpref.1), ← h.action?_iff, ha]
  · rw [List.map_append, List.mem_append, hdropped]
    grind
  · rw [List.map_append, List.map_singleton, ← List.concat_eq_append]
    exact h.nodup.concat fun hmem => hn ((hdropped _).1 hmem).1
  · rcases List.mem_append.1 he with he | he
    · refine (h.kept e he).imp (fun h => ha ▸ h) fun h => ?_
      obtain ⟨n, r, hkept, hr, hmem⟩ := h
      exact ⟨n, r, hkept, ha ▸ hr, List.mem_append_left _ hmem⟩
    · rw [List.mem_singleton.1 he]
      exact .inl rfl

/-- A shift takes the place of a reduction. What was kept till now is that reduction. -/
theorem Settled.displaced {n r : Nat} (h : Settled q x as c)
    (ha : c.action? = some (.reduce n)) :
    Settled q x (as ++ [.shift r])
      ⟨some (.shift r), c.log ++ [⟨q, x, .shift r, .reduce n⟩]⟩ := by
  have hpref := (h.action?_iff _).1 ha
  have hn : Action.reduce n ∈ as := hpref.1
  have hlt : (Action.shift r).place < (Action.reduce n).place := Nat.succ_pos _
  have hr : Action.shift r ∉ as := fun hr => Nat.not_le_of_lt hlt (hpref.2 _ hr)
  have hdropped := h.dropped_iff
  rw [ha] at hdropped
  refine ⟨fun b => ?_, nofun, fun b => ?_, ?_, fun e he => ?_⟩
  · rw [Action.preferred_append_of_gt hpref hlt, Option.some.injEq, eq_comm]
  · rw [List.map_append, List.mem_append, hdropped]
    grind
  · rw [List.map_append, List.map_singleton, ← List.concat_eq_append]
    exact h.nodup.concat fun hmem => ((hdropped _).1 hmem).2 rfl
  · rcases List.mem_append.1 he with he | he
    · rcases h.kept e he with hkept | ⟨-, r', -, hr', -⟩
      · rw [ha] at hkept
        exact .inr ⟨n, r, (Option.some.inj hkept).symm, rfl, by simp⟩
      · cases ha.symm.trans hr'
    · rw [List.mem_singleton.1 he]
      exact .inl rfl

/-- **An action that comes in turn leaves the cell settled.** -/
theorem Settled.write (h : Settled q x as c) (hb : ∀ a ∈ as, a.InTurn b) :
    Settled q x (as ++ [b]) (c.write q x b) := by
  unfold Cell.write
  cases ha : c.action? with
  | none =>
    obtain rfl := h.eq_nil ha
    exact h.first
  | some a =>
    have hmem := ((h.action?_iff a).1 ha).1
    dsimp only
    split
    · next heq => exact h.again (heq ▸ hmem)
    · next hne =>
      cases hb a hmem with
      | again => exact absurd rfl hne
      | displaces n r => exact h.displaced ha
      | refused => exact h.refused ha fun a ha => (hb a ha).place_lt

/-- **A cell is settled when all actions have come for it in turn.** -/
theorem settled_foldl (h : as.Pairwise Action.InTurn) :
    Settled q x as (as.foldl (Cell.write q x) ⟨none, []⟩) := by
  induction as using List.reverseRecOn with
  | nil => exact settled_nil
  | append_singleton as b ih =>
    obtain ⟨has, -, hb⟩ := List.pairwise_append.1 h
    rw [List.foldl_append]
    exact (ih has).write fun a ha => hb a ha b (List.mem_singleton_self b)

end Row.Cell

end Frontend
