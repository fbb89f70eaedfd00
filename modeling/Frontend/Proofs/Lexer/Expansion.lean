import Frontend.Proofs.Lexer.References
import Frontend.Proofs.Lists

/-!
# When references have an expansion

References lead from one definition to others. An expansion follows every chain of them and gives
up after 64, so a name has an expansion exactly if no chain is longer than that and every
definition on the way is sound: whatever it refers to is defined, and it has no angle bracket
without a use (`exists_expandPattern_iff`). The induction is on the levels that are left, and a
chain either ends where it begins or goes on from a definition that is referred to. A cycle has
chains of every length, so nothing that leads to one has an expansion (`Chain.exists_of_cycle`).

An expansion is the pattern with every reference replaced in its text (`Substituted`). Nothing can
be referred to in the result: in what replaces a reference all angle brackets are escaped, and a
backslash at its end escapes the parenthesis behind it (`AnglesEscaped.parenthesis`).
-/

namespace Frontend

namespace Definitions

variable {ds : Definitions} {d e f origin : Definition} {name s p : String} {levels i k : Nat}
  {cs rs : List Char} {parts : List String}

/-! ## Chains of references -/

/-- The pattern of `d` refers to `e`. -/
def Refers (ds : Definitions) (d e : Definition) : Prop :=
  ∃ name, .reference name ∈ pieces d.pattern.toList ∧ ds.find? name = some e

/-- So many references, one after the other, lead from a definition to another. -/
inductive Chain (ds : Definitions) : Nat → Definition → Definition → Prop
  | nil (d : Definition) : Chain ds 0 d d
  | cons {k : Nat} {d e f : Definition} (h : ds.Refers d e) (rest : Chain ds k e f) :
    Chain ds (k + 1) d f

/-- Whatever the pattern refers to is defined, and no angle bracket is without a use. -/
structure Sound (ds : Definitions) (d : Definition) : Prop where
  defined : ∀ name, .reference name ∈ pieces d.pattern.toList → ∃ e, ds.find? name = some e
  not_stray : .stray ∉ pieces d.pattern.toList

theorem Chain.trans (h : ds.Chain k d e) (h' : ds.Chain i e f) : ds.Chain (k + i) d f := by
  induction h with
  | nil d =>
    rw [Nat.zero_add]
    exact h'
  | cons hstep _ ih =>
    rw [Nat.add_right_comm]
    exact .cons hstep (ih h')

/-- From a definition on a cycle chains of every length begin. -/
theorem Chain.exists_of_cycle (h : ds.Chain (k + 1) d d) (n : Nat) :
    ∃ i, n ≤ i ∧ ds.Chain i d d := by
  induction n with
  | zero => exact ⟨0, Nat.le_refl 0, .nil d⟩
  | succ n ih =>
    obtain ⟨i, hi, hchain⟩ := ih
    exact ⟨k + 1 + i, by omega, h.trans hchain⟩

/-- What holds along all chains holds at their beginning and along those that begin one reference
further. -/
theorem forall_chain_iff {p : Nat → Definition → Prop} :
    (∀ k f, ds.Chain k d f → p k f) ↔
      p 0 d ∧ ∀ e, ds.Refers d e → ∀ k f, ds.Chain k e f → p (k + 1) f := by
  constructor
  · exact fun h => ⟨h 0 d (.nil d), fun e he k f hchain => h _ f (.cons he hchain)⟩
  · intro h k f hchain
    cases hchain with
    | nil => exact h.1
    | cons he rest => exact h.2 _ he _ _ rest

/-! ## Which patterns have an expansion -/

theorem exists_fills_iff {piece : Piece} :
    (∃ part, ds.Fills origin levels piece part) ↔
      piece ≠ .stray ∧ ∀ name, piece = .reference name →
        ∃ e, ds.find? name = some e ∧ ∃ s, ds.expandPattern origin levels e.pattern = .ok s := by
  cases piece with
  | text cs =>
    refine iff_of_true ⟨_, .text cs⟩ ⟨?_, ?_⟩
    · exact nofun
    · exact nofun
  | stray =>
    refine iff_of_false ?_ fun h => h.1 rfl
    rintro ⟨part, ⟨⟩⟩
  | reference name =>
    constructor
    · rintro ⟨part, hpart⟩
      cases hpart with
      | reference he h =>
        refine ⟨nofun, fun name' heq => ?_⟩
        obtain rfl := Piece.reference.inj heq
        exact ⟨_, he, _, h⟩
    · intro h
      obtain ⟨e, he, s, hs⟩ := h.2 name rfl
      exact ⟨_, .reference he hs⟩

/-- A pattern has an expansion if it is sound and all that it refers to have one, with one level
less. -/
theorem exists_expandPattern_succ_iff :
    (∃ s, ds.expandPattern origin (levels + 1) d.pattern = .ok s) ↔
      ds.Sound d ∧ ∀ e, ds.Refers d e → ∃ s, ds.expandPattern origin levels e.pattern = .ok s := by
  have hpieces : (∃ s, ds.expandPattern origin (levels + 1) d.pattern = .ok s) ↔
      ∀ piece ∈ pieces d.pattern.toList, ∃ part, ds.Fills origin levels piece part := by
    simp only [expandPattern_succ_eq_ok, ← List.exists_forall₂_iff]
    constructor
    · rintro ⟨s, parts, hparts, -⟩
      exact ⟨parts, hparts⟩
    · rintro ⟨parts, hparts⟩
      exact ⟨_, parts, hparts, rfl⟩
  simp only [hpieces, exists_fills_iff]
  constructor
  · intro h
    refine ⟨⟨fun name hname => ?_, fun hstray => (h _ hstray).1 rfl⟩, ?_⟩
    · obtain ⟨e, he, -⟩ := (h _ hname).2 name rfl
      exact ⟨e, he⟩
    · rintro e ⟨name, hname, he⟩
      obtain ⟨e', he', hs⟩ := (h _ hname).2 name rfl
      obtain rfl := Option.some.inj (he.symm.trans he')
      exact hs
  · rintro ⟨hsound, hrefers⟩ piece hpiece
    refine ⟨fun hstray => hsound.not_stray (hstray ▸ hpiece), fun name heq => ?_⟩
    subst heq
    obtain ⟨e, he⟩ := hsound.defined name hpiece
    exact ⟨e, he, hrefers e ⟨name, hpiece, he⟩⟩

/-- **A pattern has an expansion exactly if all chains of references from it stay within the
levels and pass through sound definitions only.** -/
theorem exists_expandPattern_iff :
    (∃ s, ds.expandPattern origin levels d.pattern = .ok s) ↔
      ∀ k e, ds.Chain k d e → k < levels ∧ ds.Sound e := by
  induction levels generalizing d with
  | zero =>
    refine iff_of_false ?_ fun h => Nat.not_lt_zero 0 (h 0 d (.nil d)).1
    rintro ⟨s, ⟨⟩⟩
  | succ levels ih =>
    rw [exists_expandPattern_succ_iff, forall_chain_iff]
    simp only [ih, Nat.add_lt_add_iff_right, Nat.zero_lt_succ, true_and]

theorem expand_eq (h : ds.find? name = some d) :
    ds.expand name = ds.expandPattern d (maxDepth + 1) d.pattern := by
  unfold expand
  rw [h]

/-! ## Substitution in a text -/

/-- The second text is the first with every reference replaced: `ρ` says by what, and parentheses
are put around it. Escapes stay as they are, and so do all other characters. -/
inductive Substituted (ρ : String → String → Prop) : List Char → List Char → Prop
  | nil : Substituted ρ [] []
  | escape (c : Char) {cs rs : List Char} (h : Substituted ρ cs rs) :
    Substituted ρ ('\\' :: c :: cs) ('\\' :: c :: rs)
  | backslash : Substituted ρ ['\\'] ['\\']
  | reference {name cs rs : List Char} {p : String} (hname : ∀ c ∈ name, c ≠ '<' ∧ c ≠ '>')
    (hp : ρ (String.ofList name) p) (h : Substituted ρ cs rs) :
    Substituted ρ ('<' :: name ++ '>' :: cs) ('(' :: p.toList ++ ')' :: rs)
  | char {c : Char} {cs rs : List Char} (hescape : c ≠ '\\') (hangle : c ≠ '<' ∧ c ≠ '>')
    (h : Substituted ρ cs rs) : Substituted ρ (c :: cs) (c :: rs)

/-- Every angle bracket of the text stands behind a backslash that escapes it. -/
inductive AnglesEscaped : List Char → Prop
  | nil : AnglesEscaped []
  | escape (c : Char) {cs : List Char} (h : AnglesEscaped cs) : AnglesEscaped ('\\' :: c :: cs)
  | backslash : AnglesEscaped ['\\']
  | char {c : Char} {cs : List Char} (hescape : c ≠ '\\') (hangle : c ≠ '<' ∧ c ≠ '>')
    (h : AnglesEscaped cs) : AnglesEscaped (c :: cs)

/-- A parenthesis can be closed behind such a text, even if it ends in a backslash. -/
theorem AnglesEscaped.parenthesis (h : AnglesEscaped cs) (h' : AnglesEscaped rs) :
    AnglesEscaped (cs ++ ')' :: rs) := by
  induction h with
  | nil => exact .char (by decide) (by decide) h'
  | escape c _ ih => exact .escape c ih
  | backslash => exact .escape ')' h'
  | char hescape hangle _ ih => exact .char hescape hangle ih

/-- What replaces a piece of a pattern, where `ρ` says what replaces a reference. -/
inductive Becomes (ρ : String → String → Prop) : Piece → String → Prop
  | text (cs : List Char) : Becomes ρ (.text cs) (String.ofList cs)
  | reference {name p : String} (h : ρ name p) : Becomes ρ (.reference name) ("(" ++ p ++ ")")

/-- To replace the pieces of a text is to replace the references in it. -/
theorem substituted_of_becomes {ρ : String → String → Prop}
    (h : List.Forall₂ (Becomes ρ) (pieces cs) parts) :
    Substituted ρ cs (String.join parts).toList := by
  fun_induction pieces cs generalizing parts with
  | case1 =>
    cases h
    exact .nil
  | case2 =>
    obtain _ | ⟨⟨⟩, ⟨⟩⟩ := h
    exact .backslash
  | case3 c rest ih =>
    obtain _ | ⟨⟨⟩, hparts⟩ := h
    rw [String.join_cons, String.toList_append, String.toList_ofList]
    exact .escape c (ih hparts)
  | case4 => obtain _ | ⟨⟨⟩, -⟩ := h
  | case5 rest more hmore _ ih =>
    obtain _ | ⟨hpart, hparts⟩ := h
    cases hpart with
    | reference hp =>
      obtain ⟨hsplit, hname⟩ := eq_of_dropWhile_isAngle hmore
      have hsubst := Substituted.reference hname hp (ih hparts)
      rw [List.cons_append, ← hsplit] at hsubst
      rw [String.join_cons, String.toList_append, String.toList_append, String.toList_append,
        List.append_assoc, List.append_assoc]
      exact hsubst
  | case6 => obtain _ | ⟨⟨⟩, -⟩ := h
  | case7 c rest hlast hescape hclose hopen ih =>
    obtain _ | ⟨⟨⟩, hparts⟩ := h
    rw [String.join_cons, String.toList_append, String.toList_ofList]
    refine .char (fun hc => ?_) ⟨hopen, hclose⟩ (ih hparts)
    cases rest with
    | nil => exact hlast hc rfl
    | cons c' rest => exact hescape c' rest hc rfl

/-- If the angle brackets are escaped in everything that replaces a reference, they are in the
result. -/
theorem Substituted.anglesEscaped {ρ : String → String → Prop} (h : Substituted ρ cs rs)
    (hρ : ∀ name p, ρ name p → AnglesEscaped p.toList) : AnglesEscaped rs := by
  induction h with
  | nil => exact .nil
  | escape c _ ih => exact .escape c ih
  | backslash => exact .backslash
  | reference _ hp _ ih => exact .char (by decide) (by decide) ((hρ _ _ hp).parenthesis ih)
  | char hescape hangle _ ih => exact .char hescape hangle ih

/-! ## Expansions -/

/-- No expansion leaves an angle bracket that is not escaped. -/
theorem anglesEscaped_of_expandPattern (h : ds.expandPattern origin levels s = .ok p) :
    AnglesEscaped p.toList := by
  induction levels generalizing s p with
  | zero => cases h
  | succ levels ih =>
    obtain ⟨parts, hparts, rfl⟩ := expandPattern_succ_eq_ok.1 h
    have hbecomes : List.Forall₂
        (Becomes fun name p => ∃ d, ds.find? name = some d ∧
          ds.expandPattern origin levels d.pattern = .ok p) (pieces s.toList) parts := by
      refine hparts.imp fun piece part hfill => ?_
      cases hfill with
      | text cs => exact .text cs
      | reference hd h => exact .reference ⟨_, hd, h⟩
    refine (substituted_of_becomes hbecomes).anglesEscaped fun name p hp => ?_
    obtain ⟨d, -, hp⟩ := hp
    exact ih hp

/-- An expansion is the pattern with the expansion of its name for every reference. -/
theorem substituted_of_expand (hd : ds.find? name = some d) (h : ds.expand name = .ok s) :
    Substituted (fun name p => ds.expand name = .ok p) d.pattern.toList s.toList := by
  obtain ⟨d', parts, hd', hparts, rfl⟩ := exists_replaces h
  obtain rfl := Option.some.inj (hd.symm.trans hd')
  refine substituted_of_becomes (hparts.imp fun piece part hreplaces => ?_)
  cases hreplaces with
  | text cs => exact .text cs
  | reference h => exact .reference h

/-- **References have an expansion exactly if they are finite and well named.** Every chain of them
takes at most 64 steps, and no definition on the way refers to an undefined name or has an angle
bracket without a use; a cycle can therefore not be reached. The expansion is the text of the
pattern with the expansion of its name for each reference, in parentheses, and all angle brackets
in it are escaped. -/
theorem expand_spec (h : ds.find? name = some d) :
    ((∃ s, ds.expand name = .ok s) ↔ ∀ k e, ds.Chain k d e → k ≤ 64 ∧ ds.Sound e) ∧
    (∀ s, ds.expand name = .ok s →
      Substituted (fun name p => ds.expand name = .ok p) d.pattern.toList s.toList ∧
        AnglesEscaped s.toList) ∧
    ∀ i k e, ds.Chain i d e → ds.Chain (k + 1) e e → ∃ err, ds.expand name = .error err := by
  have hiff : (∃ s, ds.expand name = .ok s) ↔ ∀ k e, ds.Chain k d e → k ≤ 64 ∧ ds.Sound e := by
    rw [expand_eq h, exists_expandPattern_iff]
    simp only [maxDepth, Nat.lt_succ_iff]
  refine ⟨hiff, fun s hs => ⟨substituted_of_expand h hs, ?_⟩, fun i k e hreach hcycle => ?_⟩
  · rw [expand_eq h] at hs
    exact anglesEscaped_of_expandPattern hs
  · cases hexpand : ds.expand name with
    | error err => exact ⟨err, rfl⟩
    | ok s =>
      -- One chain to the cycle and many times around it is too long.
      obtain ⟨j, hj, hchain⟩ := hcycle.exists_of_cycle 65
      have hshort := (hiff.1 ⟨s, hexpand⟩ _ _ (hreach.trans hchain)).1
      omega

/-- Definitions that refer each to the next, `n` times. The last one ends in a backslash. -/
def ladder (n : Nat) : Definitions where
  toList := (List.range (n + 1)).map fun i =>
    ⟨"R" ++ toString i, if i < n then "<R" ++ toString (i + 1) ++ ">\\<" else "\\<x\\", i + 1,
      "R" ++ toString i⟩
  nodup := by
    rw [List.map_map]
    exact List.nodup_range.map fun i j h => Nat.repr_injective (String.append_right_inj _ |>.1 h)

/-- The second definition refers to itself, behind a reference that has an expansion. -/
def circular : Definitions :=
  ⟨[⟨"A", "a<B>", 1, "A: a<B>"⟩, ⟨"B", "<C>|<B>", 2, "B: <C>|<B>"⟩, ⟨"C", "c", 3, "C: c"⟩],
    by decide⟩

/-- With 64 references in a row there is an expansion, and with one more there is none. -/
theorem expand_spec_ladder :
    (∃ d, (ladder 2).find? "R0" = some d ∧ (ladder 2).expand "R0" = .ok "((\\<x\\)\\<)\\<" ∧
      AnglesEscaped "((\\<x\\)\\<)\\<".toList) ∧
    (∃ d, (ladder 64).find? "R0" = some d ∧
      ∀ k e, (ladder 64).Chain k d e → k ≤ 64 ∧ (ladder 64).Sound e) ∧
    (∃ d, (ladder 65).find? "R0" = some d ∧
      ¬ ∀ k e, (ladder 65).Chain k d e → k ≤ 64 ∧ (ladder 65).Sound e) ∧
    ∃ d, circular.find? "A" = some d ∧ ∃ err, circular.expand "A" = .error err := by
  refine ⟨?_, ?_, ?_, ?_⟩
  · obtain ⟨d, hd⟩ := Option.isSome_iff_exists.1
      (show ((ladder 2).find? "R0").isSome = true by decide +kernel)
    have hexpand : (ladder 2).expand "R0" = .ok "((\\<x\\)\\<)\\<" := by decide +kernel
    exact ⟨d, hd, hexpand, ((expand_spec hd).2.1 _ hexpand).2⟩
  · obtain ⟨d, hd⟩ := Option.isSome_iff_exists.1
      (show ((ladder 64).find? "R0").isSome = true by decide +kernel)
    exact ⟨d, hd, (expand_spec hd).1.1 (exists_of_isOk (by decide +kernel))⟩
  · obtain ⟨d, hd⟩ := Option.isSome_iff_exists.1
      (show ((ladder 65).find? "R0").isSome = true by decide +kernel)
    refine ⟨d, hd, fun hchains => ?_⟩
    obtain ⟨s, hs⟩ := (expand_spec hd).1.2 hchains
    have hnone : ((ladder 65).expand "R0").isOk = false := by decide +kernel
    rw [hs] at hnone
    cases hnone
  · have hA : circular.find? "A" = some ⟨"A", "a<B>", 1, "A: a<B>"⟩ := by decide +kernel
    have hB : circular.find? "B" = some ⟨"B", "<C>|<B>", 2, "B: <C>|<B>"⟩ := by decide +kernel
    have hreach := Chain.cons (d := ⟨"A", "a<B>", 1, "A: a<B>"⟩)
      ⟨"B", by decide +kernel, hB⟩ (.nil _)
    have hcycle := Chain.cons (d := ⟨"B", "<C>|<B>", 2, "B: <C>|<B>"⟩)
      ⟨"B", by decide +kernel, hB⟩ (.nil _)
    exact ⟨_, hA, (expand_spec hA).2.2 1 0 _ hreach hcycle⟩

end Definitions

end Frontend
