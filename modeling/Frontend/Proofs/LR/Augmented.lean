import Frontend.Proofs.Grammar.SententialForms
import Frontend.Proofs.LR.States

/-!
# The augmented grammar

The productions that the parser works with are those of a grammar of their own, which has the
new start symbol in front (`Grammar.augmented`). A rightmost derivation from this symbol goes to
the old start symbol first, and goes on as in the grammar that was given
(`rightmost_augmented_iff`), since the new symbol stands in no body.
-/

namespace Frontend.Grammar

variable {g : Grammar} {ps : List Production} {ss ts : List String} {s : String}
  {p : Production}

theorem isNonterminal_augmentedStart : g.isNonterminal g.augmentedStart = false := by
  rw [← Bool.not_eq_true, isNonterminal_iff]
  exact fun h => augmentedStart_fresh (List.mem_append_left _ h)

theorem augmentedStart_not_mem_body (hp : p ∈ g.productions) : g.augmentedStart ∉ p.body := by
  intro h
  have hterminal := isTerminal_of_mem_body hp h isNonterminal_augmentedStart
  exact augmentedStart_fresh (List.mem_append_right _ (mem_terminals_iff.2 hterminal))

theorem augmentedStart_not_mem_augmented_body (hg : g.Proper) (hp : p ∈ g.augmentedProductions) :
    g.augmentedStart ∉ p.body := by
  rcases List.mem_cons.1 hp with rfl | hp
  · intro hmem
    have hstart := hg.start_isNonterminal
    rw [← List.mem_singleton.1 hmem, isNonterminal_augmentedStart] at hstart
    cases hstart
  · exact augmentedStart_not_mem_body hp

/-- The new start symbol heads the first production only. -/
theorem eq_zero_of_head_eq_augmentedStart {n : Nat} (hp : g.augmentedProductions[n]? = some p)
    (hhead : p.head = g.augmentedStart) : n = 0 := by
  by_contra hn
  have h := isNonterminal_head (mem_productions_of_ne_zero hn hp)
  rw [hhead, isNonterminal_augmentedStart] at h
  cases h

/-- The grammar with a new start symbol before the old one. -/
def augmented (g : Grammar) : Grammar where
  start := g.augmentedStart
  rules :=
    { toList := (g.augmentedStart, [[g.start]]) :: g.rules.toList
      nodup := List.nodup_cons.2
        ⟨fun h => augmentedStart_fresh (List.mem_append_left _ h), g.rules.nodup⟩ }

theorem isNonterminal_augmented_iff :
    g.augmented.isNonterminal s = true ↔ s = g.augmentedStart ∨ g.isNonterminal s = true := by
  rw [isNonterminal_iff, isNonterminal_iff]
  exact List.mem_cons

theorem noNonterminals_augmented_iff :
    g.augmented.NoNonterminals ss ↔ g.augmentedStart ∉ ss ∧ g.NoNonterminals ss := by
  simp only [NoNonterminals, ← Bool.not_eq_true, isNonterminal_augmented_iff, not_or]
  constructor
  · exact fun h => ⟨fun hs => (h _ hs).1 rfl, fun s hs => (h s hs).2⟩
  · exact fun h s hs => ⟨fun heq => h.1 (heq ▸ hs), h.2 s hs⟩

/-- A body that takes the place of its head does not bring the new start symbol in. -/
theorem augmentedStart_not_mem_replace {before after : List String} (hp : p ∈ g.productions)
    (h : g.augmentedStart ∉ before ++ p.head :: after) :
    g.augmentedStart ∉ before ++ p.body ++ after := by
  simp only [List.mem_append, List.mem_cons, not_or] at h ⊢
  exact ⟨⟨h.1, augmentedStart_not_mem_body hp⟩, h.2.2⟩

theorem Rightmost.augmentedStart_not_mem (h : g.Rightmost ps ss ts)
    (hss : g.augmentedStart ∉ ss) : g.augmentedStart ∉ ts := by
  induction h with
  | refl ss => exact hss
  | step hp _ _ ih => exact ih (augmentedStart_not_mem_replace hp hss)

/-- Away from the new start symbol the two grammars have the same derivations. -/
theorem rightmost_augmented_iff (hss : g.augmentedStart ∉ ss) :
    g.augmented.Rightmost ps ss ts ↔ g.Rightmost ps ss ts := by
  induction ps generalizing ss with
  | nil =>
    constructor
    · intro h
      rw [h.eq_of_nil]
      exact .refl ss
    · intro h
      rw [h.eq_of_nil]
      exact .refl ss
  | cons p ps ih =>
    constructor
    · intro h
      obtain ⟨before, after, rfl, hp, hafter, rest⟩ := h.exists_of_cons
      rcases List.mem_cons.1 hp with rfl | hp
      · exact absurd (by simp) hss
      · exact .step hp (noNonterminals_augmented_iff.1 hafter).2
          ((ih (augmentedStart_not_mem_replace hp hss)).1 rest)
    · intro h
      obtain ⟨before, after, rfl, hp, hafter, rest⟩ := h.exists_of_cons
      have hnot : g.augmentedStart ∉ after := fun hmem => hss (by simp [hmem])
      exact .step (List.mem_cons_of_mem _ hp) (noNonterminals_augmented_iff.2 ⟨hnot, hafter⟩)
        ((ih (augmentedStart_not_mem_replace hp hss)).2 rest)

/-- A derivation of at least one step from the new start symbol goes to the old one first. -/
theorem exists_rightmost_of_augmented (hstart : g.isNonterminal g.start = true)
    (h : g.augmented.Rightmost ps [g.augmentedStart] ts) (hps : ps ≠ []) :
    ∃ qs, g.Rightmost qs [g.start] ts := by
  obtain ⟨p, qs, rfl⟩ := List.exists_cons_of_ne_nil hps
  obtain ⟨before, after, heq, hp, -, rest⟩ := h.exists_of_cons
  obtain ⟨rfl, hcons⟩ | ⟨-, hnil⟩ := List.append_eq_singleton_iff.1 heq.symm
  · obtain ⟨hhead, rfl⟩ := List.cons.inj hcons
    rcases List.mem_cons.1 hp with rfl | hp
    · refine ⟨qs, (rightmost_augmented_iff fun hmem => ?_).1 rest⟩
      rw [← List.mem_singleton.1 hmem, isNonterminal_augmentedStart] at hstart
      cases hstart
    · have hnonterminal := isNonterminal_head hp
      rw [hhead, isNonterminal_augmentedStart] at hnonterminal
      cases hnonterminal
  · cases hnil

end Frontend.Grammar
