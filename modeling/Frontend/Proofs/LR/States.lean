import Frontend.LR.Collection
import Frontend.Proofs.FreshNames
import Frontend.Proofs.Grammar.Reading
import Frontend.Proofs.LR.ItemSets
import Frontend.Proofs.Lists
import Frontend.Proofs.Ordered

/-!
# The states of a parser

`Grammar.HasItem g q i` says that the state of number `q` holds the item `i`, and
`Grammar.Goes g q x r` that the collection leads from `q` to `r` on the symbol `x`. What the
theory of the parser needs of the collection is said in these terms: the states are closed
(`HasItem.opening`), a dot can be moved along a transition (`HasItem.advance`) and came from
there (`Goes.hasItem_of_advance`), and the first state alone holds the item that a parse
begins with (`eq_zero_of_hasItem_openingItem`).

The collection has all of this because its exploration is complete: there are no more
different item sets than there are sets of items that fit the productions.
-/

namespace Frontend

/-! ## Items that fit -/

/-- All items of productions numbered from `n`. -/
def itemsFrom (n : Nat) : List Production → List Item
  | [] => []
  | p :: ps => (List.range (p.body.length + 1)).map (⟨n, ·⟩) ++ itemsFrom (n + 1) ps

theorem length_itemsFrom (n : Nat) (ps : List Production) :
    (itemsFrom n ps).length = Collection.itemCount ps := by
  induction ps generalizing n with
  | nil => rfl
  | cons p ps ih =>
    rw [itemsFrom, List.length_append, List.length_map, List.length_range, ih,
      Collection.itemCount, Collection.itemCount, List.foldr_cons]

theorem mem_itemsFrom {n k d : Nat} {ps : List Production} {p : Production}
    (hp : ps[k]? = some p) (hd : d ≤ p.body.length) : ⟨n + k, d⟩ ∈ itemsFrom n ps := by
  induction ps generalizing n k with
  | nil => cases hp
  | cons q ps ih =>
    rw [itemsFrom, List.mem_append]
    cases k with
    | zero =>
      obtain rfl := Option.some.inj hp
      exact .inl (List.mem_map.2 ⟨d, List.mem_range.2 (by omega), rfl⟩)
    | succ k =>
      have h := ih (n := n + 1) hp
      rw [Nat.add_assoc, Nat.add_comm 1 k] at h
      exact .inr h

theorem Item.Fits.mem_itemsFrom {ps : List Production} {i : Item} (h : i.Fits ps) :
    i ∈ itemsFrom 0 ps := by
  obtain ⟨p, hp, hdot⟩ := h
  have hmem := Frontend.mem_itemsFrom (n := 0) hp hdot
  rwa [Nat.zero_add] at hmem

namespace Collection

variable {ps : List Production} {items : ItemSet} {symbol : String}

/-! ## Item sets -/

theorem mem_successors {next : ItemSet} :
    (symbol, next) ∈ successors ps items ↔
      (∃ i ∈ items, i.next? ps = some symbol) ∧ next = items.goto ps symbol := by
  rw [successors, List.mem_filter, List.mem_map]
  constructor
  · intro h
    obtain ⟨⟨symbol', hs, heq⟩, -⟩ := h
    obtain ⟨rfl, rfl⟩ := Prod.mk.inj heq
    exact ⟨ItemSet.mem_nextSymbols.1 hs, rfl⟩
  · intro h
    obtain ⟨⟨i, hi, hnext⟩, rfl⟩ := h
    refine ⟨⟨symbol, ItemSet.mem_nextSymbols.2 ⟨i, hi, hnext⟩, rfl⟩, ?_⟩
    rw [Bool.not_eq_true', OrdSet.isEmpty_eq_false_iff]
    exact ⟨i.advance, ItemSet.advance_mem_goto hi hnext⟩

/-- A step of the exploration of item sets. -/
theorem mem_next {next : ItemSet} :
    next ∈ (successors ps items).map Prod.snd ↔
      ∃ symbol, (∃ i ∈ items, i.next? ps = some symbol) ∧ next = items.goto ps symbol := by
  rw [List.mem_map]
  constructor
  · intro h
    obtain ⟨⟨symbol, next⟩, h, rfl⟩ := h
    exact ⟨symbol, mem_successors.1 h⟩
  · intro h
    obtain ⟨symbol, h⟩ := h
    exact ⟨(symbol, next), mem_successors.2 h, rfl⟩

/-- The item set that a parse begins in. -/
def firstSet (ps : List Production) : ItemSet :=
  ItemSet.closure ps (OrdSet.singleton openingItem)

/-- There are no more item sets than there are sets of items that fit the productions. -/
theorem atMost_itemSets (hps : ps ≠ []) :
    AtMost (subsetCount (itemCount ps))
      (Reachable (fun items => (successors ps items).map Prod.snd) [firstSet ps]) := by
  have h := atMost_subsets (p := Reachable (fun items => (successors ps items).map Prod.snd)
    [firstSet ps]) (itemsFrom 0 ps) fun items hitems i hi => ?_
  · rwa [length_itemsFrom] at h
  · refine Item.Fits.mem_itemsFrom ?_
    refine hitems.induction (p := fun items => ∀ i ∈ items, i.Fits ps) ?_ ?_ i hi
    · intro items hitems
      rw [List.mem_singleton.1 hitems]
      refine ItemSet.fits_of_mem_closure fun i hi => ?_
      rw [OrdSet.mem_singleton.1 hi]
      cases ps with
      | nil => exact absurd rfl hps
      | cons p ps => exact ⟨p, rfl, Nat.zero_le _⟩
    · intro items next _ hnext
      obtain ⟨symbol, -, rfl⟩ := mem_next.1 hnext
      exact ItemSet.fits_of_mem_goto

theorem mem_itemSets (hps : ps ≠ []) :
    items ∈ itemSets ps ↔
      Reachable (fun items => (successors ps items).map Prod.snd) [firstSet ps] items :=
  mem_explore (atMost_itemSets hps)

/-- The item sets are the first one and what `goto` gives for others of them. -/
theorem itemSets_cases (hps : ps ≠ []) (h : items ∈ itemSets ps) :
    items = firstSet ps ∨ ∃ before ∈ itemSets ps, ∃ symbol, items = before.goto ps symbol := by
  obtain ⟨s, hs, hr⟩ := (mem_itemSets hps).1 h
  cases hr.cases_tail with
  | inl heq => exact .inl (heq.trans (List.mem_singleton.1 hs))
  | inr hlast =>
    obtain ⟨before, hbefore, hnext⟩ := hlast
    obtain ⟨symbol, -, rfl⟩ := mem_next.1 hnext
    exact .inr ⟨before, (mem_itemSets hps).2 ⟨s, hs, hbefore⟩, symbol, rfl⟩

theorem goto_mem_itemSets (hps : ps ≠ []) (h : items ∈ itemSets ps)
    (hsymbol : ∃ i ∈ items, i.next? ps = some symbol) : items.goto ps symbol ∈ itemSets ps :=
  (mem_itemSets hps).2 (((mem_itemSets hps).1 h).step (mem_next.2 ⟨symbol, hsymbol, rfl⟩))

/-! ## Moves -/

/-- The move of a state on a symbol after one of its dots. -/
theorem lookup_moves {n : Nat} {sets : List ItemSet} :
    ((successors ps items).map fun (symbol, next) => (symbol, sets.idxOf next)).lookup symbol =
        some n ↔
      (∃ i ∈ items, i.next? ps = some symbol) ∧ n = sets.idxOf (items.goto ps symbol) := by
  -- Only one entry is under the symbol, since its target depends on nothing else.
  have hmem : ∀ m, (symbol, m) ∈ (successors ps items).map
      (fun (symbol, next) => (symbol, sets.idxOf next)) ↔
        (∃ i ∈ items, i.next? ps = some symbol) ∧ m = sets.idxOf (items.goto ps symbol) := by
    intro m
    rw [List.mem_map]
    constructor
    · intro h
      obtain ⟨⟨symbol', next⟩, h, heq⟩ := h
      obtain ⟨rfl, rfl⟩ := Prod.mk.inj heq
      obtain ⟨hsymbol, rfl⟩ := mem_successors.1 h
      exact ⟨hsymbol, rfl⟩
    · intro h
      obtain ⟨hsymbol, rfl⟩ := h
      exact ⟨(symbol, items.goto ps symbol), mem_successors.2 ⟨hsymbol, rfl⟩, rfl⟩
  rw [List.lookup_eq_some_iff_mem fun m m' hm hm' => ?_, hmem]
  rw [((hmem m).1 hm).2, ((hmem m').1 hm').2]

theorem nodup_itemSets : (itemSets ps).Nodup := nodup_explore

theorem itemSets_zero : (itemSets ps)[0]? = some (firstSet ps) := by
  obtain ⟨more, h⟩ := explore_cons (fun items => (successors ps items).map Prod.snd)
    (subsetCount (itemCount ps)) (firstSet ps)
  have h' : itemSets ps = firstSet ps :: more := h
  rw [h', List.getElem?_cons_zero]

theorem length_states_ofGrammar {g : Grammar} :
    (ofGrammar g).states.length = (itemSets g.augmentedProductions).length :=
  List.length_map ..

end Collection

namespace Grammar

open Collection

variable {g : Grammar} {q r : Nat} {i : Item} {x : String}

/-! ## States by number -/

/-- The state of a number holds an item. -/
def HasItem (g : Grammar) (q : Nat) (i : Item) : Prop :=
  ∃ items, (itemSets g.augmentedProductions)[q]? = some items ∧ i ∈ items

/-- The collection leads from one state to another. -/
def Goes (g : Grammar) (q : Nat) (x : String) (r : Nat) : Prop :=
  (Collection.ofGrammar g).transition? q x = some (.state r)

/-- Where the collection leads on a symbol is determined. -/
theorem Goes.unique {r' : Nat} (h : g.Goes q x r) (h' : g.Goes q x r') : r = r' :=
  Transition.state.inj (Option.some.inj (h.symm.trans h'))

/-- Where the collection leads from a state of known items. -/
theorem goes_iff {items : ItemSet} (hq : (itemSets g.augmentedProductions)[q]? = some items) :
    g.Goes q x r ↔
      ¬ (x = endMarker ∧ completedItem ∈ items) ∧
        (∃ i ∈ items, i.next? g.augmentedProductions = some x) ∧
          r = (itemSets g.augmentedProductions).idxOf (items.goto g.augmentedProductions x) := by
  rw [Goes, transition?, Collection.ofGrammar, List.getElem?_map, hq, Option.map_some,
    Option.bind_some, CollectionState.transition?]
  split
  · next h => simp [h]
  · next h =>
    simp only [h, not_false_eq_true, true_and, Option.map_eq_some_iff, Transition.state.injEq,
      exists_eq_right]
    exact lookup_moves

/-- A step of the parser's automaton leads from the items of a state to their `goto`. -/
theorem Goes.items (h : g.Goes q x r) :
    ∃ items, (itemSets g.augmentedProductions)[q]? = some items ∧
      (∃ i ∈ items, i.next? g.augmentedProductions = some x) ∧
      (itemSets g.augmentedProductions)[r]? = some (items.goto g.augmentedProductions x) := by
  cases hq : (itemSets g.augmentedProductions)[q]? with
  | none =>
    rw [Goes, transition?, Collection.ofGrammar, List.getElem?_map, hq] at h
    cases h
  | some items =>
    obtain ⟨-, hsymbol, rfl⟩ := (goes_iff hq).1 h
    have hmem := goto_mem_itemSets (List.cons_ne_nil _ _) (List.mem_of_getElem? hq) hsymbol
    exact ⟨items, rfl, hsymbol, List.getElem?_idxOf hmem⟩

theorem hasItem_zero : g.HasItem 0 openingItem :=
  ⟨_, itemSets_zero, ItemSet.mem_closure_of_mem (OrdSet.mem_singleton.2 rfl)⟩

/-- With an item, a state holds the items that open the symbol after its dot. -/
theorem HasItem.opening {n : Nat} {p : Production} (h : g.HasItem q i)
    (hnext : i.next? g.augmentedProductions = some p.head)
    (hp : g.augmentedProductions[n]? = some p) : g.HasItem q ⟨n, 0⟩ := by
  obtain ⟨items, hq, hi⟩ := h
  refine ⟨items, hq, ?_⟩
  rcases itemSets_cases (List.cons_ne_nil _ _) (List.mem_of_getElem? hq) with
    rfl | ⟨before, -, symbol, rfl⟩
  · exact ItemSet.opening_mem_closure hi hnext hp
  · exact ItemSet.opening_mem_closure hi hnext hp

/-- A dot in front of a symbol can be moved along a transition on that symbol. -/
theorem HasItem.advance (h : g.HasItem q i) (hnext : i.next? g.augmentedProductions = some x)
    (hx : x ≠ endMarker) : ∃ r, g.Goes q x r ∧ g.HasItem r i.advance := by
  obtain ⟨items, hq, hi⟩ := h
  have hsymbol : ∃ i ∈ items, i.next? g.augmentedProductions = some x := ⟨i, hi, hnext⟩
  have hmem := goto_mem_itemSets (List.cons_ne_nil _ _) (List.mem_of_getElem? hq) hsymbol
  exact ⟨_, (goes_iff hq).2 ⟨fun hend => hx hend.1, hsymbol, rfl⟩, _, List.getElem?_idxOf hmem,
    ItemSet.advance_mem_goto hi hnext⟩

/-- The items of a state fit the productions. -/
theorem HasItem.fits (h : g.HasItem q i) : i.Fits g.augmentedProductions := by
  obtain ⟨items, hq, hi⟩ := h
  rcases itemSets_cases (List.cons_ne_nil _ _) (List.mem_of_getElem? hq) with
    rfl | ⟨before, -, symbol, rfl⟩
  · refine ItemSet.fits_of_mem_closure (fun i hi => ?_) i hi
    rw [OrdSet.mem_singleton.1 hi]
    exact ⟨_, rfl, Nat.zero_le _⟩
  · exact ItemSet.fits_of_mem_goto i hi

/-- A production is opened in a state only where its head stands after a dot, apart from the one
that a parse begins with. -/
theorem HasItem.exists_before {n : Nat} {p : Production} (h : g.HasItem q ⟨n, 0⟩) (hn : n ≠ 0)
    (hp : g.augmentedProductions[n]? = some p) :
    ∃ j, g.HasItem q j ∧ j.next? g.augmentedProductions = some p.head := by
  obtain ⟨items, hq, hi⟩ := h
  rcases itemSets_cases (List.cons_ne_nil _ _) (List.mem_of_getElem? hq) with
    rfl | ⟨before, -, symbol, rfl⟩
  · rcases ItemSet.closure_cases hi with hi | ⟨-, p', j, hp', hj, hnext⟩
    · exact absurd (congrArg Item.production (OrdSet.mem_singleton.1 hi)) hn
    · obtain rfl := Option.some.inj (hp.symm.trans hp')
      exact ⟨j, ⟨_, hq, hj⟩, hnext⟩
  · rcases ItemSet.goto_cases hi with ⟨j, -, -, heq⟩ | ⟨-, p', j, hp', hj, hnext⟩
    · cases congrArg Item.dot heq
    · obtain rfl := Option.some.inj (hp.symm.trans hp')
      exact ⟨j, ⟨_, hq, hj⟩, hnext⟩

/-- A dot that is not at the start was moved along the transition into its state. -/
theorem Goes.hasItem_of_advance (h : g.Goes q x r) (hi : g.HasItem r i.advance) :
    g.HasItem q i ∧ i.next? g.augmentedProductions = some x := by
  obtain ⟨items, hq, -, hr⟩ := h.items
  obtain ⟨items', hr', hi⟩ := hi
  rw [hr] at hr'
  obtain rfl := Option.some.inj hr'
  obtain ⟨hi, hnext⟩ := ItemSet.mem_of_advance_mem_goto hi
  exact ⟨⟨items, hq, hi⟩, hnext⟩

/-- All dots of the first state are at the start. -/
theorem dot_eq_zero_of_hasItem_zero (h : g.HasItem 0 i) : i.dot = 0 := by
  obtain ⟨items, hq, hi⟩ := h
  rw [itemSets_zero] at hq
  obtain rfl := Option.some.inj hq
  rcases ItemSet.closure_cases hi with hi | ⟨hdot, -⟩
  · rw [OrdSet.mem_singleton.1 hi]
    rfl
  · exact hdot

/-! ## The new start symbol -/

theorem augmentedStart_fresh : g.augmentedStart ∉ g.nonterminals ++ g.terminals.toList := by
  refine fresh_not_mem fun i j h => ?_
  have hmark : 0 < "'".length := by decide
  exact Nat.succ.inj (append_repeated_injective g.start hmark h)

/-- A production of the grammar has the number after its own. -/
theorem augmentedProductions_succ (n : Nat) :
    g.augmentedProductions[n + 1]? = g.productions[n]? := rfl

theorem mem_productions_of_ne_zero {n : Nat} {p : Production} (hn : n ≠ 0)
    (hp : g.augmentedProductions[n]? = some p) : p ∈ g.productions := by
  cases n with
  | zero => exact absurd rfl hn
  | succ n => exact List.mem_of_getElem? hp

theorem exists_number_of_mem_productions {p : Production} (hp : p ∈ g.productions) :
    ∃ n, g.augmentedProductions[n + 1]? = some p :=
  List.getElem?_of_mem hp

/-- What stands after a dot is a symbol of the grammar. -/
theorem Proper.symbol_of_next? (hg : g.Proper) (h : i.next? g.augmentedProductions = some x) :
    g.isNonterminal x = true ∨ g.isTerminal x = true := by
  obtain ⟨p, hp, hx⟩ := Item.next?_eq_some_iff.1 h
  cases hn : i.production with
  | zero =>
    rw [hn] at hp
    obtain rfl := Option.some.inj hp
    have hmem := List.mem_of_getElem? hx
    rw [List.mem_singleton.1 hmem]
    exact .inl hg.start_isNonterminal
  | succ n =>
    rw [hn, augmentedProductions_succ] at hp
    have hp := List.mem_of_getElem? hp
    by_cases hnt : g.isNonterminal x = true
    · exact .inl hnt
    · exact .inr (isTerminal_of_mem_body hp (List.mem_of_getElem? hx) (Bool.not_eq_true _ ▸ hnt))

/-- The end marker never stands after a dot. -/
theorem Proper.ne_endMarker_of_next? (hg : g.Proper)
    (h : i.next? g.augmentedProductions = some x) : x ≠ endMarker := by
  intro heq
  subst heq
  rcases hg.symbol_of_next? h with h | h
  · rw [hg.endMarker_not_head] at h
    cases h
  · exact hg.not_isTerminal_endMarker h

/-- The dot moves over the next symbol into a state that the collection leads to on it. -/
theorem HasItem.exists_goes {n d : Nat} {p : Production} {rest : List String} (hg : g.Proper)
    (h : g.HasItem q ⟨n, d⟩) (hp : g.augmentedProductions[n]? = some p)
    (hdrop : p.body.drop d = x :: rest) :
    Item.next? g.augmentedProductions ⟨n, d⟩ = some x ∧ p.body.drop (d + 1) = rest ∧
      ∃ r, g.Goes q x r ∧ g.HasItem r ⟨n, d + 1⟩ := by
  have hnext : Item.next? g.augmentedProductions ⟨n, d⟩ = some x := by
    refine Item.next?_eq_some_iff.2 ⟨p, hp, ?_⟩
    rw [← List.head?_drop, hdrop, List.head?_cons]
  refine ⟨hnext, ?_, h.advance hnext (hg.ne_endMarker_of_next? hnext)⟩
  rw [← List.tail_drop, hdrop, List.tail_cons]

/-- The new start symbol never stands after a dot. -/
theorem Proper.ne_augmentedStart_of_next? (hg : g.Proper)
    (h : i.next? g.augmentedProductions = some x) : x ≠ g.augmentedStart := by
  intro heq
  subst heq
  refine augmentedStart_fresh (g := g) (List.mem_append.2 ?_)
  rcases hg.symbol_of_next? h with h | h
  · exact .inl (isNonterminal_iff.1 h)
  · exact .inr (mem_terminals_iff.2 h)

/-- No dot is moved to where a parse begins, and nothing there is predicted. -/
theorem Proper.openingItem_not_mem_goto (hg : g.Proper) {items : ItemSet} :
    ¬ openingItem ∈ items.goto g.augmentedProductions x := by
  intro hi
  rcases ItemSet.goto_cases hi with ⟨j, -, -, heq⟩ | ⟨-, p, j, hp, -, hnext⟩
  · cases congrArg Item.dot heq
  · obtain rfl := Option.some.inj hp
    exact hg.ne_augmentedStart_of_next? hnext rfl

/-- **The item that a parse begins with is in the first state only.** -/
theorem Proper.eq_zero_of_hasItem_openingItem (hg : g.Proper) (h : g.HasItem q openingItem) :
    q = 0 := by
  obtain ⟨items, hq, hi⟩ := h
  rcases itemSets_cases (List.cons_ne_nil _ _) (List.mem_of_getElem? hq) with
    rfl | ⟨before, -, symbol, rfl⟩
  · obtain ⟨hlt, hget⟩ := List.getElem?_eq_some_iff.1 hq
    obtain ⟨hlt', hget'⟩ := List.getElem?_eq_some_iff.1 itemSets_zero
    exact (nodup_itemSets.getElem_inj_iff).1 (hget.trans hget'.symm)
  · exact absurd hi hg.openingItem_not_mem_goto

/-- Nothing leads back to the first state. -/
theorem Proper.ne_zero_of_goes (hg : g.Proper) (h : g.Goes q x r) : r ≠ 0 := by
  intro heq
  subst heq
  obtain ⟨items, -, -, hr⟩ := h.items
  obtain ⟨items', hr', hi⟩ := hasItem_zero (g := g)
  rw [hr] at hr'
  obtain rfl := Option.some.inj hr'
  exact hg.openingItem_not_mem_goto hi

end Grammar

end Frontend
