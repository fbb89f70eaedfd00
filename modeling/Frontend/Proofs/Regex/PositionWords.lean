import Frontend.Regex.Positions
import Mathlib.Computability.Language
import Mathlib.Data.List.Chain

/-!
# The words of an expression, by positions

The words of an expression are sequences of positions. `Expr.Fits` says of a sequence that it
begins with a first position, ends with a last one and goes from each position to one that
can follow it. All words fit (`fits_of_mem_words`). If no position occurs twice, the sequences
that fit are exactly the words (`mem_words_iff`): each position tells in which part of the
expression it lies, so the sequence can be taken apart.
-/

namespace Frontend.Regex.Expr

open scoped Computability

/-- The words of an expression as sequences of positions. -/
def words : Expr → Language Nat
  | symbol p _ | marker p => {[p]}
  | epsilon => 1
  | star e => e.words∗
  | concat l r => l.words * r.words
  | alt l r => l.words + r.words

/-- The positions of an expression from left to right, that of the mark included. -/
def positions : Expr → List Nat
  | symbol p _ | marker p => [p]
  | epsilon => []
  | star e => e.positions
  | concat l r | alt l r => l.positions ++ r.positions

/-- One position can come right after another. -/
def Follows : Expr → Nat → Nat → Prop
  | symbol .., _, _ | epsilon, _, _ | marker _, _, _ => False
  | star e, p, q => e.Follows p q ∨ p ∈ e.last ∧ q ∈ e.first
  | concat l r, p, q => (l.Follows p q ∨ r.Follows p q) ∨ p ∈ l.last ∧ q ∈ r.first
  | alt l r, p, q => l.Follows p q ∨ r.Follows p q

/-- A sequence goes from a first to a last position, each one following the one before. -/
structure Fits (e : Expr) (u : List Nat) : Prop where
  nullable : u = [] → e.nullable = true
  head : ∀ p ∈ u.head?, p ∈ e.first
  chain : u.IsChain e.Follows
  last : ∀ p ∈ u.getLast?, p ∈ e.last

variable {e l r : Expr} {p q : Nat} {u v : List Nat}

/-! ## Borders of composed expressions -/

theorem nullable_concat :
    (concat l r).nullable = true ↔ l.nullable = true ∧ r.nullable = true :=
  Bool.and_eq_true_iff

theorem nullable_alt : (alt l r).nullable = true ↔ l.nullable = true ∨ r.nullable = true :=
  Bool.or_eq_true_iff

theorem mem_first_concat :
    p ∈ (concat l r).first ↔ p ∈ l.first ∨ l.nullable = true ∧ p ∈ r.first := by
  have h : (concat l r).first = if l.nullable then l.first ∪ r.first else l.first := rfl
  rw [h]
  split
  · next hl => rw [OrdSet.mem_union, and_iff_right hl]
  · next hl => rw [or_iff_left fun h => hl h.1]

theorem mem_last_concat :
    p ∈ (concat l r).last ↔ p ∈ r.last ∨ r.nullable = true ∧ p ∈ l.last := by
  have h : (concat l r).last = if r.nullable then l.last ∪ r.last else r.last := rfl
  rw [h]
  split
  · next hr => rw [OrdSet.mem_union, and_iff_right hr, or_comm]
  · next hr => rw [or_iff_left fun h => hr h.1]

theorem mem_first_alt : p ∈ (alt l r).first ↔ p ∈ l.first ∨ p ∈ r.first := OrdSet.mem_union

theorem mem_last_alt : p ∈ (alt l r).last ↔ p ∈ l.last ∨ p ∈ r.last := OrdSet.mem_union

/-! ## Positions -/

theorem mem_positions_of_mem_first (h : p ∈ e.first) : p ∈ e.positions := by
  induction e with
  | symbol q c => exact List.mem_singleton.2 (OrdSet.mem_singleton.1 h)
  | epsilon => exact absurd h OrdSet.not_mem_empty
  | marker q => exact List.mem_singleton.2 (OrdSet.mem_singleton.1 h)
  | star e ih => exact ih h
  | concat l r ihl ihr =>
    rcases mem_first_concat.1 h with h | ⟨-, h⟩
    · exact List.mem_append_left _ (ihl h)
    · exact List.mem_append_right _ (ihr h)
  | alt l r ihl ihr =>
    rcases mem_first_alt.1 h with h | h
    · exact List.mem_append_left _ (ihl h)
    · exact List.mem_append_right _ (ihr h)

theorem mem_positions_of_mem_last (h : p ∈ e.last) : p ∈ e.positions := by
  induction e with
  | symbol q c => exact List.mem_singleton.2 (OrdSet.mem_singleton.1 h)
  | epsilon => exact absurd h OrdSet.not_mem_empty
  | marker q => exact List.mem_singleton.2 (OrdSet.mem_singleton.1 h)
  | star e ih => exact ih h
  | concat l r ihl ihr =>
    rcases mem_last_concat.1 h with h | ⟨-, h⟩
    · exact List.mem_append_right _ (ihr h)
    · exact List.mem_append_left _ (ihl h)
  | alt l r ihl ihr =>
    rcases mem_last_alt.1 h with h | h
    · exact List.mem_append_left _ (ihl h)
    · exact List.mem_append_right _ (ihr h)

theorem Follows.mem_positions (h : e.Follows p q) : p ∈ e.positions ∧ q ∈ e.positions := by
  induction e with
  | symbol _ _ => exact h.elim
  | epsilon => exact h.elim
  | marker _ => exact h.elim
  | star e ih =>
    rcases h with h | ⟨hp, hq⟩
    · exact ih h
    · exact ⟨mem_positions_of_mem_last hp, mem_positions_of_mem_first hq⟩
  | concat l r ihl ihr =>
    rcases h with (h | h) | ⟨hp, hq⟩
    · exact (ihl h).imp (List.mem_append_left _) (List.mem_append_left _)
    · exact (ihr h).imp (List.mem_append_right _) (List.mem_append_right _)
    · exact ⟨List.mem_append_left _ (mem_positions_of_mem_last hp),
        List.mem_append_right _ (mem_positions_of_mem_first hq)⟩
  | alt l r ihl ihr =>
    rcases h with h | h
    · exact (ihl h).imp (List.mem_append_left _) (List.mem_append_left _)
    · exact (ihr h).imp (List.mem_append_right _) (List.mem_append_right _)

/-- A sequence that fits stays among the positions. -/
theorem Fits.mem_positions (h : e.Fits u) : ∀ p ∈ u, p ∈ e.positions := by
  refine h.chain.induction (· ∈ e.positions) u (fun _ _ hpq _ => hpq.mem_positions.2) ?_
  intro hne
  exact mem_positions_of_mem_first (h.head _ (List.head?_eq_some_head hne))

/-! ## Words fit -/

theorem fits_nil (h : e.nullable = true) : e.Fits [] :=
  ⟨fun _ => h, fun _ hp => (by cases hp), .nil, fun _ hp => (by cases hp)⟩

theorem fits_singleton (hfirst : p ∈ e.first) (hlast : p ∈ e.last) : e.Fits [p] := by
  refine ⟨fun h => (List.cons_ne_nil _ _ h).elim, fun q hq => ?_, .singleton p, fun q hq => ?_⟩
  · rwa [← Option.some.inj hq]
  · rwa [← Option.some.inj hq]

theorem Fits.concat (hu : l.Fits u) (hv : r.Fits v) : (concat l r).Fits (u ++ v) where
  nullable := fun h =>
    nullable_concat.2 ⟨hu.nullable (List.append_eq_nil_iff.1 h).1,
      hv.nullable (List.append_eq_nil_iff.1 h).2⟩
  head := by
    intro p hp
    rw [mem_first_concat]
    cases u with
    | nil => exact .inr ⟨hu.nullable rfl, hv.head p hp⟩
    | cons q u => exact .inl (hu.head p hp)
  chain := by
    -- Where the parts meet, the last position of one is followed by the first of the other.
    refine List.isChain_append.2 ⟨hu.chain.imp fun _ _ h => .inl (.inl h),
      hv.chain.imp fun _ _ h => .inl (.inr h), fun p hp q hq => .inr ⟨hu.last p hp, hv.head q hq⟩⟩
  last := by
    intro p hp
    rw [mem_last_concat]
    cases v with
    | nil =>
      rw [List.append_nil] at hp
      exact .inr ⟨hv.nullable rfl, hu.last p hp⟩
    | cons q v =>
      rw [List.getLast?_append_cons] at hp
      exact .inl (hv.last p hp)

theorem Fits.alt_left (hu : l.Fits u) : (alt l r).Fits u :=
  ⟨fun h => nullable_alt.2 (.inl (hu.nullable h)),
    fun p hp => mem_first_alt.2 (.inl (hu.head p hp)),
    hu.chain.imp fun _ _ h => .inl h, fun p hp => mem_last_alt.2 (.inl (hu.last p hp))⟩

theorem Fits.alt_right (hu : r.Fits u) : (alt l r).Fits u :=
  ⟨fun h => nullable_alt.2 (.inr (hu.nullable h)),
    fun p hp => mem_first_alt.2 (.inr (hu.head p hp)),
    hu.chain.imp fun _ _ h => .inr h, fun p hp => mem_last_alt.2 (.inr (hu.last p hp))⟩

theorem fits_star_flatten {us : List (List Nat)} (h : ∀ u ∈ us, e.Fits u) :
    (star e).Fits us.flatten := by
  induction us with
  | nil => exact fits_nil rfl
  | cons u us ih =>
    have hu := h u List.mem_cons_self
    have hus := ih fun v hv => h v (.tail _ hv)
    rw [List.flatten_cons]
    refine ⟨fun _ => rfl, fun p hp => ?_, ?_, fun p hp => ?_⟩
    · cases u with
      | nil => exact hus.head p hp
      | cons q u => exact hu.head p hp
    · exact List.isChain_append.2 ⟨hu.chain.imp fun _ _ h => .inl h, hus.chain,
        fun p hp q hq => .inr ⟨hu.last p hp, hus.head q hq⟩⟩
    · cases hflat : us.flatten with
      | nil =>
        rw [hflat, List.append_nil] at hp
        exact hu.last p hp
      | cons q v =>
        rw [hflat, List.getLast?_append_cons, ← hflat] at hp
        exact hus.last p hp

/-- **Every word fits its expression.** -/
theorem fits_of_mem_words (h : u ∈ e.words) : e.Fits u := by
  induction e generalizing u with
  | symbol p c =>
    obtain rfl : u = [p] := h
    exact fits_singleton (OrdSet.mem_singleton.2 rfl) (OrdSet.mem_singleton.2 rfl)
  | epsilon =>
    obtain rfl : u = [] := h
    exact fits_nil rfl
  | marker p =>
    obtain rfl : u = [p] := h
    exact fits_singleton (OrdSet.mem_singleton.2 rfl) (OrdSet.mem_singleton.2 rfl)
  | star e ih =>
    obtain ⟨us, rfl, hus⟩ := Language.mem_kstar.1 h
    exact fits_star_flatten fun u hu => ih (hus u hu)
  | concat l r ihl ihr =>
    obtain ⟨u, hu, v, hv, rfl⟩ := Language.mem_mul.1 h
    exact (ihl hu).concat (ihr hv)
  | alt l r ihl ihr =>
    rcases (Language.mem_add _ _ _).1 h with h | h
    · exact (ihl h).alt_left
    · exact (ihr h).alt_right

/-! ## What fits is a word -/

section Disjoint

variable (hdisjoint : ∀ p ∈ l.positions, p ∉ r.positions)

include hdisjoint

theorem follows_left (h : (concat l r).Follows p q) (hq : q ∈ l.positions) : l.Follows p q := by
  rcases h with (h | h) | h
  · exact h
  · exact absurd h.mem_positions.2 (hdisjoint q hq)
  · exact absurd (mem_positions_of_mem_first h.2) (hdisjoint q hq)

theorem follows_right (h : (concat l r).Follows p q) (hp : p ∈ r.positions) : r.Follows p q := by
  rcases h with (h | h) | h
  · exact absurd hp (hdisjoint p h.mem_positions.1)
  · exact h
  · exact absurd hp (hdisjoint p (mem_positions_of_mem_last h.1))

theorem follows_across (h : (concat l r).Follows p q) (hp : p ∈ l.positions)
    (hq : q ∈ r.positions) : p ∈ l.last ∧ q ∈ r.first := by
  rcases h with (h | h) | h
  · exact absurd hq (hdisjoint q h.mem_positions.2)
  · exact absurd h.mem_positions.1 (hdisjoint p hp)
  · exact h

/-- If the parts of a concatenation share no position, a chain runs through the left part
first and then through the right one. -/
theorem exists_split (hu : ∀ p ∈ u, p ∈ l.positions ∨ p ∈ r.positions)
    (hchain : u.IsChain (concat l r).Follows) :
    ∃ v w, u = v ++ w ∧ (∀ p ∈ v, p ∈ l.positions) ∧ (∀ p ∈ w, p ∈ r.positions) ∧
      v.IsChain l.Follows ∧ w.IsChain r.Follows ∧
        ∀ p ∈ v.getLast?, ∀ q ∈ w.head?, p ∈ l.last ∧ q ∈ r.first := by
  induction u with
  | nil => exact ⟨[], [], rfl, List.forall_mem_nil _, List.forall_mem_nil _, .nil, .nil,
      fun p hp => (by cases hp)⟩
  | cons p u ih =>
    obtain ⟨hnext, hchain⟩ := List.isChain_cons.1 hchain
    obtain ⟨v, w, rfl, hv, hw, hvchain, hwchain, hcross⟩ :=
      ih (fun q hq => hu q (.tail _ hq)) hchain
    rcases hu p List.mem_cons_self with hp | hp
    · refine ⟨p :: v, w, rfl, List.forall_mem_cons.2 ⟨hp, hv⟩, hw, ?_, hwchain, ?_⟩
      · cases v with
        | nil => exact .singleton p
        | cons q v =>
          exact .cons_cons (follows_left hdisjoint (hnext q rfl) (hv q List.mem_cons_self)) hvchain
      · cases v with
        | nil =>
          intro p' hp' q hq
          obtain rfl : p = p' := Option.some.inj hp'
          exact follows_across hdisjoint (hnext q hq) hp (hw q (List.mem_of_mem_head? hq))
        | cons q v => exact hcross
    · cases v with
      | nil =>
        refine ⟨[], p :: w, rfl, List.forall_mem_nil _, List.forall_mem_cons.2 ⟨hp, hw⟩, .nil, ?_,
          fun p hp => (by cases hp)⟩
        exact List.isChain_cons.2
          ⟨fun q hq => follows_right hdisjoint (hnext q hq) hp, hwchain⟩
      | cons q v =>
        -- A chain does not come back from the right part.
        have hback := follows_left hdisjoint (hnext q rfl) (hv q List.mem_cons_self)
        exact absurd hp (hdisjoint p hback.mem_positions.1)

theorem fits_left_of_split {w : List Nat} (h : (concat l r).Fits (v ++ w))
    (hv : ∀ p ∈ v, p ∈ l.positions) (hw : ∀ p ∈ w, p ∈ r.positions) (hchain : v.IsChain l.Follows)
    (hcross : ∀ p ∈ v.getLast?, ∀ q ∈ w.head?, p ∈ l.last ∧ q ∈ r.first) : l.Fits v := by
  refine ⟨?_, ?_, hchain, ?_⟩
  · intro heq
    subst heq
    cases w with
    | nil => exact (nullable_concat.1 (h.nullable rfl)).1
    | cons q w =>
      -- The word begins in the right part, so the left one can be empty.
      rcases mem_first_concat.1 (h.head q rfl) with hq | hq
      · exact absurd (hw q List.mem_cons_self) (hdisjoint q (mem_positions_of_mem_first hq))
      · exact hq.1
  · intro p hp
    cases v with
    | nil => cases hp
    | cons q v =>
      obtain rfl : q = p := Option.some.inj hp
      rcases mem_first_concat.1 (h.head q rfl) with hq | hq
      · exact hq
      · exact absurd (mem_positions_of_mem_first hq.2) (hdisjoint q (hv q List.mem_cons_self))
  · intro p hp
    cases w with
    | nil =>
      rw [List.append_nil] at h
      rcases mem_last_concat.1 (h.last p hp) with hp' | hp'
      · exact absurd (mem_positions_of_mem_last hp')
          (hdisjoint p (hv p (List.mem_of_mem_getLast? hp)))
      · exact hp'.2
    | cons q w => exact (hcross p hp q rfl).1

theorem fits_right_of_split {w : List Nat} (h : (concat l r).Fits (v ++ w))
    (hv : ∀ p ∈ v, p ∈ l.positions) (hw : ∀ p ∈ w, p ∈ r.positions) (hchain : w.IsChain r.Follows)
    (hcross : ∀ p ∈ v.getLast?, ∀ q ∈ w.head?, p ∈ l.last ∧ q ∈ r.first) : r.Fits w := by
  refine ⟨?_, ?_, hchain, ?_⟩
  · intro heq
    subst heq
    rw [List.append_nil] at h
    cases hlast : v.getLast? with
    | none =>
      rw [List.getLast?_eq_none_iff] at hlast
      exact (nullable_concat.1 (h.nullable hlast)).2
    | some p =>
      rcases mem_last_concat.1 (h.last p hlast) with hp | hp
      · exact absurd (mem_positions_of_mem_last hp)
          (hdisjoint p (hv p (List.mem_of_mem_getLast? hlast)))
      · exact hp.1
  · intro q hq
    cases hlast : v.getLast? with
    | none =>
      rw [List.getLast?_eq_none_iff] at hlast
      subst hlast
      rcases mem_first_concat.1 (h.head q hq) with hq' | hq'
      · exact absurd (hw q (List.mem_of_mem_head? hq))
          (hdisjoint q (mem_positions_of_mem_first hq'))
      · exact hq'.2
    | some p => exact (hcross p hlast q hq).2
  · intro p hp
    cases w with
    | nil => cases hp
    | cons q w =>
      have hmem := hw p (List.mem_of_mem_getLast? hp)
      rw [← List.getLast?_append_cons v] at hp
      rcases mem_last_concat.1 (h.last p hp) with hp' | hp'
      · exact hp'
      · exact absurd hmem (hdisjoint p (mem_positions_of_mem_last hp'.2))

/-- What fits a concatenation falls into what fits its parts. -/
theorem exists_fits_of_concat (h : (concat l r).Fits u) :
    ∃ v w, u = v ++ w ∧ l.Fits v ∧ r.Fits w := by
  obtain ⟨v, w, rfl, hv, hw, hvchain, hwchain, hcross⟩ :=
    exists_split hdisjoint (fun p hp => List.mem_append.1 (h.mem_positions p hp)) h.chain
  exact ⟨v, w, rfl, fits_left_of_split hdisjoint h hv hw hvchain hcross,
    fits_right_of_split hdisjoint h hv hw hwchain hcross⟩

/-- If alternatives share no position, a chain that begins in one of them stays there. -/
theorem fits_left_of_alt (h : (alt l r).Fits u) (hne : u ≠ []) (hhead : u.head hne ∈ l.first) :
    l.Fits u := by
  have hstay : ∀ p q, (alt l r).Follows p q → p ∈ l.positions → l.Follows p q := by
    intro p q hpq hp
    rcases hpq with hpq | hpq
    · exact hpq
    · exact absurd hpq.mem_positions.1 (hdisjoint p hp)
  have hmem : ∀ p ∈ u, p ∈ l.positions :=
    h.chain.induction (· ∈ l.positions) u (fun p q hpq hp => (hstay p q hpq hp).mem_positions.2)
      fun _ => mem_positions_of_mem_first hhead
  refine ⟨fun hnil => absurd hnil hne, fun p hp => ?_, ?_, fun p hp => ?_⟩
  · rw [List.head?_eq_some_head hne] at hp
    rwa [← Option.some.inj hp]
  · exact h.chain.imp_of_mem_imp fun p q hp _ hpq => hstay p q hpq (hmem p hp)
  · rcases mem_last_alt.1 (h.last p hp) with hp' | hp'
    · exact hp'
    · exact absurd (mem_positions_of_mem_last hp')
        (hdisjoint p (hmem p (List.mem_of_mem_getLast? hp)))

end Disjoint

theorem Fits.alt_swap (h : (alt l r).Fits u) : (alt r l).Fits u :=
  ⟨fun hnil => nullable_alt.2 (nullable_alt.1 (h.nullable hnil)).symm,
    fun p hp => mem_first_alt.2 (mem_first_alt.1 (h.head p hp)).symm,
    h.chain.imp fun _ _ hpq => hpq.symm,
    fun p hp => mem_last_alt.2 (mem_last_alt.1 (h.last p hp)).symm⟩

/-- Only the one position fits an expression that has no more than this. -/
theorem eq_singleton_of_fits (hnull : e.nullable = false) (hfirst : ∀ q, q ∈ e.first → q = p)
    (hfollows : ∀ q q', ¬ e.Follows q q') (h : e.Fits u) : u = [p] := by
  cases u with
  | nil =>
    rw [h.nullable rfl] at hnull
    cases hnull
  | cons q u =>
    cases u with
    | nil => rw [hfirst q (h.head q rfl)]
    | cons q' u => exact absurd (List.isChain_cons_cons.1 h.chain).1 (hfollows q q')

/-- A chain of repetitions is cut wherever it goes from a last position to a first one. -/
theorem exists_fits_of_star (hchain : (p :: u).IsChain (star e).Follows)
    (hlast : ∀ q ∈ (p :: u).getLast?, q ∈ e.last) :
    ∃ (v : List Nat) (us : List (List Nat)), p :: u = p :: v ++ us.flatten ∧
      (p :: v).IsChain e.Follows ∧ (∀ q ∈ (p :: v).getLast?, q ∈ e.last) ∧ ∀ w ∈ us, e.Fits w := by
  induction u generalizing p with
  | nil => exact ⟨[], [], rfl, .singleton p, hlast, List.forall_mem_nil _⟩
  | cons q u ih =>
    -- A succession inside `e` goes on with the round; any other begins the next one.
    obtain ⟨hnext, hchain⟩ := List.isChain_cons_cons.1 hchain
    obtain ⟨v, us, heq, hvchain, hvlast, hus⟩ := ih hchain hlast
    rcases hnext with hnext | ⟨hp, hq⟩
    · exact ⟨q :: v, us, by rw [heq]; rfl, .cons_cons hnext hvchain, hvlast, hus⟩
    · refine ⟨[], (q :: v) :: us, by rw [heq]; rfl, .singleton p, fun q' hq' => ?_, ?_⟩
      · rwa [← Option.some.inj hq']
      · refine List.forall_mem_cons.2 ⟨⟨fun h => absurd h (List.cons_ne_nil _ _), ?_, hvchain,
          hvlast⟩, hus⟩
        intro q' hq'
        rwa [← Option.some.inj hq']

theorem disjoint_of_nodup (h : (l.positions ++ r.positions).Nodup) :
    ∀ p ∈ l.positions, p ∉ r.positions :=
  fun p hp hp' => (List.nodup_append.1 h).2.2 p hp p hp' rfl

/-- **What fits an expression is a word of it**, if no position occurs twice. -/
theorem mem_words_of_fits (he : e.positions.Nodup) (h : e.Fits u) : u ∈ e.words := by
  induction e generalizing u with
  | symbol p c => exact eq_singleton_of_fits rfl (fun q => OrdSet.mem_singleton.1) (fun _ _ => id) h
  | epsilon =>
    -- The empty word is in a part that can be empty; any other is in the part it begins in.
    cases u with
    | nil => rfl
    | cons q u => exact absurd (h.head q rfl) OrdSet.not_mem_empty
  | marker p => exact eq_singleton_of_fits rfl (fun q => OrdSet.mem_singleton.1) (fun _ _ => id) h
  | star e ih =>
    cases u with
    | nil => exact Language.nil_mem_kstar _
    | cons p u =>
      obtain ⟨v, us, heq, hchain, hlast, hus⟩ := exists_fits_of_star h.chain h.last
      have hv : e.Fits (p :: v) :=
        ⟨fun hnil => absurd hnil (List.cons_ne_nil _ _), h.head, hchain, hlast⟩
      rw [heq, ← List.flatten_cons]
      exact Language.join_mem_kstar
        (List.forall_mem_cons.2 ⟨ih he hv, fun w hw => ih he (hus w hw)⟩)
  | concat l r ihl ihr =>
    obtain ⟨v, w, rfl, hv, hw⟩ := exists_fits_of_concat (disjoint_of_nodup he) h
    obtain ⟨hl, hr, -⟩ := List.nodup_append.1 he
    exact Language.append_mem_mul (ihl hl hv) (ihr hr hw)
  | alt l r ihl ihr =>
    obtain ⟨hl, hr, -⟩ := List.nodup_append.1 he
    rw [words, Language.mem_add]
    cases u with
    | nil =>
      rcases nullable_alt.1 (h.nullable rfl) with hnull | hnull
      · exact .inl (ihl hl (fits_nil hnull))
      · exact .inr (ihr hr (fits_nil hnull))
    | cons p u =>
      rcases mem_first_alt.1 (h.head p rfl) with hp | hp
      · exact .inl (ihl hl (fits_left_of_alt (disjoint_of_nodup he) h (List.cons_ne_nil _ _) hp))
      · have hswap := disjoint_of_nodup (List.perm_append_comm.nodup_iff.1 he)
        exact .inr (ihr hr (fits_left_of_alt hswap h.alt_swap (List.cons_ne_nil _ _) hp))

/-- The words of an expression without repeated positions are what fits it. -/
theorem mem_words_iff (he : e.positions.Nodup) : u ∈ e.words ↔ e.Fits u :=
  ⟨fits_of_mem_words, mem_words_of_fits he⟩

end Frontend.Regex.Expr
