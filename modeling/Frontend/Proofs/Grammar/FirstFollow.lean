import Frontend.Grammar.Sets
import Frontend.Proofs.FixedPoints
import Frontend.Proofs.Grammar.Derivation
import Frontend.Proofs.Ordered
import Mathlib.Data.Finset.Prod

/-!
# First and follow sets are closed

The first and follow sets are reached by rounds that only add symbols. A set can hold the
terminals and one mark besides, so the number of rounds that the library allows is enough,
and the sets that come out are fixed points (`firstSets_fixed`, `followSets_fixed`).

A fixed point contains all that the productions show: the first set of a body is part of that
of its head (`mem_firstSets_of_body`), and what the rest of a body shows is in the follow set of
the nonterminal before it (`mem_followSets_of_body`). There the mark of the empty word lets what
follows the head take the place of what the rest begins with (`mem_shown`).
-/

namespace Frontend

namespace SymbolSets

/-! ## Growing sets -/

theorem getD_eq_of_get? {s : SymbolSets} {k : String} {set : OrdSet String}
    (h : s.get? k = some set) : s.getD k ∅ = set := by
  rw [OrdMap.getD, h, Option.getD_some]

theorem get?_extend {s : SymbolSets} {k j : String} {more : OrdSet String} :
    (s.extend k more).get? j = if j = k then some (s.getD k ∅ ∪ more) else s.get? j := by
  rw [extend, OrdMap.get?_alter, OrdMap.getD]

theorem mem_getD_extend {s : SymbolSets} {k j x : String} {more : OrdSet String} :
    x ∈ (s.extend k more).getD j ∅ ↔ x ∈ s.getD j ∅ ∨ j = k ∧ x ∈ more := by
  rw [OrdMap.getD, get?_extend]
  by_cases hj : j = k
  · subst hj
    rw [if_pos rfl, Option.getD_some, OrdSet.mem_union]
    grind
  · rw [if_neg hj, OrdMap.getD]
    grind

/-- Every set of `s` is part of the set of `t` for the same symbol. -/
def Below (s t : SymbolSets) : Prop :=
  ∀ k set, s.get? k = some set → ∃ set', t.get? k = some set' ∧ ∀ x, x ∈ set → x ∈ set'

theorem Below.refl (s : SymbolSets) : Below s s :=
  fun _ set h => ⟨set, h, fun _ hx => hx⟩

theorem Below.trans {s t u : SymbolSets} (h : Below s t) (h' : Below t u) : Below s u := by
  intro k set hset
  obtain ⟨set', hset', hsub⟩ := h k set hset
  obtain ⟨set'', hset'', hsub'⟩ := h' k set' hset'
  exact ⟨set'', hset'', fun x hx => hsub' x (hsub x hx)⟩

theorem Below.antisymm {s t : SymbolSets} (h : Below s t) (h' : Below t s) : s = t := by
  ext k
  cases hs : s.get? k with
  | none =>
    cases ht : t.get? k with
    | none => rfl
    | some set =>
      obtain ⟨set', hset', -⟩ := h' k set ht
      rw [hs] at hset'
      cases hset'
  | some set =>
    obtain ⟨set', ht, hsub⟩ := h k set hs
    obtain ⟨set'', hs', hsub'⟩ := h' k set' ht
    obtain rfl : set = set'' := Option.some.inj (hs.symm.trans hs')
    rw [ht, OrdSet.ext fun x => ⟨hsub x, hsub' x⟩]

theorem below_extend (s : SymbolSets) (k : String) (more : OrdSet String) :
    Below s (s.extend k more) := by
  intro j set hset
  rw [get?_extend]
  by_cases hj : j = k
  · subst hj
    exact ⟨s.getD j ∅ ∪ more, by rw [if_pos rfl], fun x hx => by
      rw [getD_eq_of_get? hset, OrdSet.mem_union]
      exact .inl hx⟩
  · exact ⟨set, by rw [if_neg hj, hset], fun x hx => hx⟩

/-- A set that is extended by nothing new held it all before. -/
theorem mem_of_extend_eq {s : SymbolSets} {k x : String} {more : OrdSet String}
    (h : s.extend k more = s) (hx : x ∈ more) : x ∈ s.getD k ∅ := by
  have hk : s.get? k = some (s.getD k ∅ ∪ more) := by
    conv => lhs; rw [← h]
    rw [get?_extend, if_pos rfl]
  rw [getD_eq_of_get? hk, OrdSet.mem_union]
  exact .inr hx

theorem below_foldl {f : SymbolSets → α → SymbolSets} (hf : ∀ s a, Below s (f s a))
    (l : List α) (s : SymbolSets) : Below s (l.foldl f s) := by
  induction l generalizing s with
  | nil => exact .refl s
  | cons a l ih => exact (hf s a).trans (ih (f s a))

/-- If a pass over a list only adds and changes nothing, then no step of it changes
anything. -/
theorem foldl_fixed {f : SymbolSets → α → SymbolSets} (hf : ∀ s a, Below s (f s a))
    {l : List α} {s : SymbolSets} (h : l.foldl f s = s) : ∀ a ∈ l, f s a = s := by
  induction l with
  | nil =>
    intro a ha
    cases ha
  | cons b l ih =>
    rw [List.foldl_cons] at h
    have hback := below_foldl hf l (f s b)
    rw [h] at hback
    have hb : f s b = s := hback.antisymm (hf s b)
    rw [hb] at h
    intro a ha
    rcases List.mem_cons.1 ha with rfl | ha
    · exact hb
    · exact ih h a ha

/-! ## How far sets can grow -/

/-- The symbols in `keys` have sets with members in `range`; for the others the sets are
those of `base`. -/
structure Within (keys range : List String) (base s : SymbolSets) : Prop where
  key : ∀ k ∈ keys, ∃ set, s.get? k = some set ∧ ∀ x, x ∈ set → x ∈ range
  other : ∀ k, k ∉ keys → s.get? k = base.get? k

variable {keys range : List String} {base s t : SymbolSets}

theorem Within.getD_mem (h : Within keys range base s) {k x : String} (hk : k ∈ keys)
    (hx : x ∈ s.getD k ∅) : x ∈ range := by
  obtain ⟨set, hset, hrange⟩ := h.key k hk
  rw [getD_eq_of_get? hset] at hx
  exact hrange x hx

theorem Within.extend (h : Within keys range base s) {k : String} {more : OrdSet String}
    (hk : k ∈ keys) (hmore : ∀ x, x ∈ more → x ∈ range) :
    Within keys range base (s.extend k more) where
  key j hj := by
    rw [get?_extend]
    by_cases heq : j = k
    · refine ⟨s.getD k ∅ ∪ more, by rw [if_pos heq], fun x hx => ?_⟩
      rcases OrdSet.mem_union.1 hx with hx | hx
      · exact h.getD_mem hk hx
      · exact hmore x hx
    · obtain ⟨set, hset, hrange⟩ := h.key j hj
      exact ⟨set, by rw [if_neg heq, hset], hrange⟩
  other j hj := by
    rw [get?_extend, if_neg (fun heq : j = k => hj (heq ▸ hk)), h.other j hj]

/-- The pairs of a symbol in `keys` and a symbol in its set. -/
def entries (keys range : List String) (s : SymbolSets) : Finset (String × String) :=
  (keys.toFinset ×ˢ range.toFinset).filter fun e => e.2 ∈ s.getD e.1 ∅

theorem mem_entries {e : String × String} :
    e ∈ entries keys range s ↔ e.1 ∈ keys ∧ e.2 ∈ range ∧ e.2 ∈ s.getD e.1 ∅ := by
  rw [entries, Finset.mem_filter, Finset.mem_product, List.mem_toFinset, List.mem_toFinset,
    and_assoc]

theorem card_entries_le (keys range : List String) (s : SymbolSets) :
    (entries keys range s).card ≤ keys.length * range.length := by
  calc (entries keys range s).card ≤ (keys.toFinset ×ˢ range.toFinset).card :=
        Finset.card_filter_le _ _
    _ = keys.toFinset.card * range.toFinset.card := Finset.card_product _ _
    _ ≤ keys.length * range.length :=
        Nat.mul_le_mul (List.toFinset_card_le _) (List.toFinset_card_le _)

/-- Sets that grow gain an entry. -/
theorem card_entries_lt (hs : Within keys range base s) (ht : Within keys range base t)
    (hbelow : Below s t) (hne : t ≠ s) :
    (entries keys range s).card < (entries keys range t).card := by
  have hsub : entries keys range s ⊆ entries keys range t := by
    intro e he
    obtain ⟨hk, hr, hx⟩ := mem_entries.1 he
    obtain ⟨set, hset, -⟩ := hs.key _ hk
    obtain ⟨set', hset', hmem⟩ := hbelow _ set hset
    rw [getD_eq_of_get? hset] at hx
    exact mem_entries.2 ⟨hk, hr, by rw [getD_eq_of_get? hset']; exact hmem _ hx⟩
  -- If no entry were new, the two tables would be equal.
  refine Finset.card_lt_card (Finset.ssubset_iff_subset_ne.2 ⟨hsub, fun heq => hne ?_⟩)
  refine Below.antisymm (fun k set hset => ?_) hbelow
  by_cases hk : k ∈ keys
  · obtain ⟨set', hset', -⟩ := hs.key k hk
    refine ⟨set', hset', fun x hx => ?_⟩
    have he : (k, x) ∈ entries keys range t := by
      have hx' : x ∈ t.getD k ∅ := by rw [getD_eq_of_get? hset]; exact hx
      exact mem_entries.2 ⟨hk, ht.getD_mem hk hx', hx'⟩
    rw [← heq] at he
    have hx' := (mem_entries.1 he).2.2
    rwa [getD_eq_of_get? hset'] at hx'
  · exact ⟨set, by rw [hs.other k hk, ← ht.other k hk, hset], fun x hx => hx⟩

/-- Rounds that only add symbols within the limits end in a fixed point, if there is one
round for every entry and one more. -/
theorem stabilize_within {f : SymbolSets → SymbolSets} {bound : Nat}
    (hf : ∀ s, Within keys range base s → Within keys range base (f s))
    (hbelow : ∀ s, Below s (f s)) (hs : Within keys range base s)
    (hbound : keys.length * range.length < bound) :
    f (stabilize f bound s) = stabilize f bound s ∧
      Within keys range base (stabilize f bound s) := by
  refine ⟨?_, stabilize_induction hf bound s hs⟩
  exact stabilize_fixed (fun s => (entries keys range s).card) hf
    (fun s _ => card_entries_le keys range s)
    (fun s h hne => card_entries_lt h (hf s h) (hbelow s) hne) hs (by omega)

end SymbolSets

namespace Grammar

open SymbolSets

variable {g : Grammar}

/-! ## First sets -/

/-- What a first set can hold. -/
def firstRange (g : Grammar) : List String := g.terminals.toList ++ [emptySymbol]

theorem get?_foldl_insert_empty {l : List String} {s : SymbolSets} {k : String} :
    (l.foldl (fun s k => s.insert k ∅) s).get? k = if k ∈ l then some ∅ else s.get? k := by
  induction l generalizing s with
  | nil => simp
  | cons x l ih =>
    rw [List.foldl_cons, ih, OrdMap.get?_insert]
    grind

theorem within_initialFirst :
    Within g.nonterminals g.firstRange g.initialFirst g.initialFirst where
  key k hk := by
    refine ⟨∅, ?_, fun x hx => absurd hx OrdSet.not_mem_empty⟩
    rw [initialFirst, get?_foldl_insert_empty, if_pos hk]
  other _ _ := rfl

/-- The set to start from of a symbol that is no nonterminal holds that symbol alone. -/
theorem get?_initialFirst {t : String} {set : OrdSet String} (ht : g.isNonterminal t = false)
    (h : g.initialFirst.get? t = some set) :
    set = OrdSet.singleton t ∧ g.isTerminal t = true := by
  have hn : t ∉ g.nonterminals := by
    rw [← isNonterminal_iff, ht]
    exact Bool.false_ne_true
  rw [initialFirst, get?_foldl_insert_empty, if_neg hn] at h
  obtain ⟨t', ht', heq⟩ := List.mem_map.1 (OrdMap.mem_of_get?_ofList h)
  obtain ⟨rfl, rfl⟩ := Prod.mk.inj heq
  exact ⟨rfl, mem_terminals_iff.1 ht'⟩

/-- The first set of a string of symbols stays within the terminals and the empty word. -/
theorem ofSequence_range {first : SymbolSets}
    (h : Within g.nonterminals g.firstRange g.initialFirst first) {ss : List String}
    (hss : ∀ s ∈ ss, g.isNonterminal s = false → g.isTerminal s = true) :
    ∀ x, x ∈ first.ofSequence ss → x ∈ g.firstRange := by
  induction ss with
  | nil =>
    intro x hx
    rw [ofSequence, OrdSet.mem_singleton] at hx
    rw [hx, firstRange]
    simp
  | cons s ss ih =>
    have ih := ih fun t ht => hss t (List.mem_cons_of_mem _ ht)
    intro x hx
    unfold ofSequence at hx
    -- A symbol without an entry stands for itself, so it is a terminal.
    split at hx
    · next hnone =>
      rw [OrdSet.mem_singleton] at hx
      subst hx
      have hn : g.isNonterminal x = false := by
        rw [← Bool.not_eq_true, isNonterminal_iff]
        intro hk
        obtain ⟨set, hset, -⟩ := h.key x hk
        rw [hnone] at hset
        cases hset
      exact List.mem_append_left _ (mem_terminals_iff.2 (hss x List.mem_cons_self hn))
    · next set hset =>
      have hrange : ∀ y, y ∈ set → y ∈ g.firstRange := by
        intro y hy
        by_cases hk : s ∈ g.nonterminals
        · exact h.getD_mem hk (by rw [getD_eq_of_get? hset]; exact hy)
        · have hn : g.isNonterminal s = false := by
            rwa [← Bool.not_eq_true, isNonterminal_iff]
          rw [h.other s hk] at hset
          obtain ⟨rfl, ht⟩ := get?_initialFirst hn hset
          rw [OrdSet.mem_singleton] at hy
          subst hy
          exact List.mem_append_left _ (mem_terminals_iff.2 ht)
      split at hx
      · rcases OrdSet.mem_union.1 hx with hx | hx
        · exact hrange x (OrdSet.mem_filter.1 hx).1
        · exact ih x hx
      · exact hrange x hx

theorem symbols_of_body {p : Production} (hp : p ∈ g.productions) :
    ∀ s ∈ p.body, g.isNonterminal s = false → g.isTerminal s = true :=
  fun _ hs hn => isTerminal_of_mem_body hp hs hn

theorem firstRound_within {first : SymbolSets}
    (h : Within g.nonterminals g.firstRange g.initialFirst first) :
    Within g.nonterminals g.firstRange g.initialFirst (firstRound g.productions first) := by
  refine List.foldlRecOn g.productions _ h fun s hs p hp => ?_
  exact hs.extend (isNonterminal_iff.1 (isNonterminal_head hp))
    (ofSequence_range hs (symbols_of_body hp))

theorem firstSets_spec :
    firstRound g.productions g.firstSets = g.firstSets ∧
      Within g.nonterminals g.firstRange g.initialFirst g.firstSets := by
  refine stabilize_within (fun s => firstRound_within) (fun s => ?_) within_initialFirst ?_
  · exact below_foldl (fun s p => below_extend s _ _) _ s
  · rw [setBound, firstRange, List.length_append, List.length_singleton, OrdSet.size]
    exact Nat.lt_succ_of_le (Nat.mul_le_mul_left _ (by omega))

/-- The first sets are a fixed point. -/
theorem firstSets_fixed : firstRound g.productions g.firstSets = g.firstSets :=
  firstSets_spec.1

/-- The first set of a body is part of that of its head. -/
theorem mem_firstSets_of_body {p : Production} {x : String} (hp : p ∈ g.productions)
    (hx : x ∈ g.firstSets.ofSequence p.body) : x ∈ g.firstSets.getD p.head ∅ := by
  have hfix := foldl_fixed (fun s p => below_extend s _ _) firstSets_fixed p hp
  exact mem_of_extend_eq hfix hx

/-- The first set of a terminal is itself, or it has none. -/
theorem get?_firstSets_of_terminal {t : String} {set : OrdSet String}
    (ht : g.isNonterminal t = false) (h : g.firstSets.get? t = some set) :
    set = OrdSet.singleton t := by
  have hn : t ∉ g.nonterminals := by
    rw [← isNonterminal_iff, ht]
    exact Bool.false_ne_true
  rw [firstSets_spec.2.other t hn] at h
  exact (get?_initialFirst ht h).1

/-! ## Follow sets -/

/-- What a follow set can hold. -/
def followRange (g : Grammar) : List String := g.terminals.toList ++ [endMarker]

/-- In a table of empty sets every key has one. -/
theorem get?_emptySets {keys : List String} {k : String} (hk : k ∈ keys) :
    (OrdMap.ofList (keys.map fun s => (s, (∅ : OrdSet String)))).get? k = some ∅ := by
  refine OrdMap.get?_ofList_eq (List.mem_map.2 ⟨k, hk, rfl⟩) fun set hset => ?_
  obtain ⟨k', -, heq⟩ := List.mem_map.1 hset
  exact (Prod.mk.inj heq).2.symm

theorem get?_initialFollow {k : String} (hk : k ∈ g.nonterminals) :
    ∃ set, g.initialFollow.get? k = some set ∧ ∀ x, x ∈ set → x ∈ g.followRange := by
  rw [initialFollow, get?_extend]
  split
  · refine ⟨_, rfl, fun x hx => ?_⟩
    subst k
    rw [getD_eq_of_get? (get?_emptySets hk), OrdSet.mem_union, OrdSet.mem_singleton] at hx
    have hx := hx.resolve_left OrdSet.not_mem_empty
    rw [hx, followRange]
    simp
  · exact ⟨∅, get?_emptySets hk, fun x hx => absurd hx OrdSet.not_mem_empty⟩

theorem within_initialFollow :
    Within g.nonterminals g.followRange g.initialFollow g.initialFollow where
  key _ hk := get?_initialFollow hk
  other _ _ := rfl

/-- What the rest of a body shows to follow a nonterminal before it. -/
def shown (first follow : SymbolSets) (head : String) (rest : Body) : OrdSet String :=
  let next := first.ofSequence rest
  if emptySymbol ∈ next then next.filter (· ≠ emptySymbol) ∪ follow.getD head ∅ else next

/-- The rest of a body shows what it can begin with, and what follows the head if the rest can
be empty. -/
theorem mem_shown {first follow : SymbolSets} {head x : String} {rest : Body} :
    x ∈ shown first follow head rest ↔
      x ≠ emptySymbol ∧ x ∈ first.ofSequence rest ∨
        emptySymbol ∈ first.ofSequence rest ∧ x ∈ follow.getD head ∅ := by
  unfold shown
  by_cases hempty : emptySymbol ∈ first.ofSequence rest
  · simp only [if_pos hempty, OrdSet.mem_union, OrdSet.mem_filter, decide_eq_true_iff]
    grind
  · simp only [if_neg hempty]
    grind

theorem shown_range {follow : SymbolSets} {p : Production} {front rest : List String}
    (h : Within g.nonterminals g.followRange g.initialFollow follow) (hp : p ∈ g.productions)
    (hbody : p.body = front ++ rest) :
    ∀ x, x ∈ shown g.firstSets follow p.head rest → x ∈ g.followRange := by
  have hrest : ∀ s ∈ rest, g.isNonterminal s = false → g.isTerminal s = true :=
    fun s hs => symbols_of_body hp s (hbody ▸ List.mem_append_right _ hs)
  intro x hx
  rcases mem_shown.1 hx with ⟨hne, hx⟩ | ⟨-, hx⟩
  · rcases List.mem_append.1 (ofSequence_range firstSets_spec.2 hrest x hx) with hx | hx
    · exact List.mem_append_left _ hx
    · exact absurd (List.mem_singleton.1 hx) hne
  · exact h.getD_mem (isNonterminal_iff.1 (isNonterminal_head hp)) hx

theorem followInBody_cons (first : SymbolSets) (head symbol : String) (rest : Body)
    (follow : SymbolSets) :
    g.followInBody first head (symbol :: rest) follow =
      g.followInBody first head rest
        (if g.isNonterminal symbol = true then
          follow.extend symbol (shown first follow head rest)
        else follow) := by
  rw [followInBody]
  split <;> rfl

theorem below_followInBody (first : SymbolSets) (head : String) (body : Body)
    (follow : SymbolSets) : Below follow (g.followInBody first head body follow) := by
  induction body generalizing follow with
  | nil => exact .refl follow
  | cons symbol rest ih =>
    rw [followInBody_cons]
    refine .trans ?_ (ih _)
    split
    · exact below_extend follow _ _
    · exact .refl follow

theorem followInBody_within {follow : SymbolSets} {p : Production} {front rest : List String}
    (h : Within g.nonterminals g.followRange g.initialFollow follow) (hp : p ∈ g.productions)
    (hbody : p.body = front ++ rest) :
    Within g.nonterminals g.followRange g.initialFollow
      (g.followInBody g.firstSets p.head rest follow) := by
  induction rest generalizing follow front with
  | nil => exact h
  | cons symbol rest ih =>
    have hbody' : p.body = (front ++ [symbol]) ++ rest := by simpa using hbody
    rw [followInBody_cons]
    split
    · next hn =>
      exact ih (h.extend (isNonterminal_iff.1 hn) (shown_range h hp hbody')) hbody'
    · exact ih h hbody'

/-- If going through a body adds nothing, then what the rest of the body shows was known to
follow each nonterminal of it. -/
theorem mem_of_followInBody_eq {first follow : SymbolSets} {head symbol x : String}
    {front rest : List String}
    (h : g.followInBody first head (front ++ symbol :: rest) follow = follow)
    (hn : g.isNonterminal symbol = true) (hx : x ∈ shown first follow head rest) :
    x ∈ follow.getD symbol ∅ := by
  induction front with
  | nil =>
    rw [List.nil_append, followInBody_cons, if_pos hn] at h
    -- The rounds only add, so one that changes nothing in the end changes nothing on the way.
    have hback := below_followInBody (g := g) first head rest
      (follow.extend symbol (shown first follow head rest))
    rw [h] at hback
    exact mem_of_extend_eq (hback.antisymm (below_extend _ _ _)) hx
  | cons s front ih =>
    rw [List.cons_append, followInBody_cons] at h
    split at h
    · have hback := below_followInBody (g := g) first head (front ++ symbol :: rest)
        (follow.extend s (shown first follow head (front ++ symbol :: rest)))
      rw [h] at hback
      rw [hback.antisymm (below_extend _ _ _)] at h
      exact ih h
    · exact ih h

theorem followSets_spec :
    g.followRound g.firstSets g.followSets = g.followSets ∧
      Within g.nonterminals g.followRange g.initialFollow g.followSets := by
  refine stabilize_within (fun s hs => ?_) (fun s => ?_) within_initialFollow ?_
  · exact List.foldlRecOn g.productions _ hs fun s h p hp =>
      followInBody_within h hp (List.nil_append _).symm
  · exact below_foldl (fun s p => below_followInBody _ _ _ s) _ s
  · rw [setBound, followRange, List.length_append, List.length_singleton, OrdSet.size]
    exact Nat.lt_succ_of_le (Nat.mul_le_mul_left _ (by omega))

/-- The follow sets are a fixed point. -/
theorem followSets_fixed : g.followRound g.firstSets g.followSets = g.followSets :=
  followSets_spec.1

/-- What the rest of a body shows is in the follow set of the nonterminal before it. -/
theorem mem_followSets_of_body {p : Production} {front rest : List String} {symbol x : String}
    (hp : p ∈ g.productions) (hbody : p.body = front ++ symbol :: rest)
    (hn : g.isNonterminal symbol = true) (hx : x ∈ shown g.firstSets g.followSets p.head rest) :
    x ∈ g.followSets.getD symbol ∅ := by
  -- The final table is not changed by one more look at the body of `p`.
  have hfix := foldl_fixed (fun s p => below_followInBody _ _ _ s) followSets_fixed p hp
  rw [hbody] at hfix
  exact mem_of_followInBody_eq hfix hn hx

/-- Follow sets hold terminals and the end marker only. -/
theorem mem_followSets_range {k x : String} (hk : g.isNonterminal k = true)
    (hx : x ∈ g.followSets.getD k ∅) : g.isTerminal x = true ∨ x = endMarker := by
  rcases List.mem_append.1 (followSets_spec.2.getD_mem (isNonterminal_iff.1 hk) hx) with h | h
  · exact .inl (mem_terminals_iff.1 h)
  · exact .inr (List.mem_singleton.1 h)

/-- The end marker follows the start symbol. -/
theorem endMarker_mem_followSets : endMarker ∈ g.followSets.getD g.start ∅ := by
  have hbelow : ∀ s, Below g.initialFollow s →
      Below g.initialFollow (g.followRound g.firstSets s) :=
    fun s h => h.trans (below_foldl (fun s p => below_followInBody _ _ _ s) _ s)
  have h := stabilize_induction hbelow g.setBound g.initialFollow (.refl _)
  have hstart : g.initialFollow.get? g.start =
      some ((OrdMap.ofList (g.nonterminals.map fun s => (s, (∅ : OrdSet String)))).getD g.start ∅ ∪
        OrdSet.singleton endMarker) := by
    rw [initialFollow, get?_extend, if_pos rfl]
  obtain ⟨set, hset, hsub⟩ := h _ _ hstart
  have hset : g.followSets.get? g.start = some set := hset
  rw [getD_eq_of_get? hset]
  exact hsub endMarker (OrdSet.mem_union.2 (.inr (OrdSet.mem_singleton.2 rfl)))

end Grammar

end Frontend
