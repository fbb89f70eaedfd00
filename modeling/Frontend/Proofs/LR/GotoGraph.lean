import Frontend.Proofs.LR.States

/-!
# The collection is the graph of `goto`

`Collection.Leads` is a step from an item set to what `goto` gives for some symbol, if that is not
empty. The states of the collection are the item sets that such steps lead to from the first one
(`mem_itemSets_iff`), each of them once, and the transitions of a state are its steps, by the
numbers of the states that they lead to (`Proper.goes_iff_goto`). `IsGotoGraph` says this of a
collection, with the acceptance on the end marker, and `collection_spec` that it holds of the
collection of every grammar, and that the worklists come to their ends.
-/

namespace Frontend

open Relation (ReflTransGen)

namespace ItemSet

variable {ps : List Production} {items : ItemSet} {symbol : String}

/-- The worklist of a closure comes to its end. -/
theorem finishes_closure (ps : List Production) (items : ItemSet) :
    ∃ found, Finishes (predicted ps) [] (newcomers [] items.toList) found ∧
      closure ps items = OrdSet.ofList found :=
  ⟨_, finishes_explore atMost_reachable, rfl⟩

/-- Without items a closure brings nothing in. -/
theorem exists_mem_of_mem_closure {i : Item} (h : i ∈ closure ps items) : ∃ j, j ∈ items := by
  obtain ⟨j, hj, -⟩ := mem_closure.1 h
  exact ⟨j, hj⟩

/-- `goto` leads somewhere exactly on the symbols after the dots. -/
theorem goto_ne_empty_iff :
    items.goto ps symbol ≠ ∅ ↔ ∃ i ∈ items, i.next? ps = some symbol := by
  constructor
  · intro h
    obtain ⟨i, hi⟩ := OrdSet.exists_mem_of_ne_empty h
    obtain ⟨j, hj⟩ := exists_mem_of_mem_closure hi
    obtain ⟨k, hk, hnext, -⟩ := mem_moved.1 hj
    exact ⟨k, hk, hnext⟩
  · intro h hempty
    obtain ⟨i, hi, hnext⟩ := h
    exact OrdSet.eq_empty_iff.1 hempty _ (advance_mem_goto hi hnext)

end ItemSet

namespace Collection

variable {ps : List Production} {items next : ItemSet} {x : String} {q r : Nat}

/-! ## Steps between item sets -/

/-- Moving the dots over some symbol leads from one item set to another that is not empty. -/
def Leads (ps : List Production) (items next : ItemSet) : Prop :=
  ∃ symbol, next = items.goto ps symbol ∧ next ≠ ∅

/-- The exploration of item sets goes where `goto` leads. -/
theorem mem_next_iff_leads : next ∈ (successors ps items).map Prod.snd ↔ Leads ps items next := by
  rw [mem_next]
  refine exists_congr fun symbol => ?_
  rw [and_comm]
  refine and_congr_right fun h => ?_
  rw [h, ItemSet.goto_ne_empty_iff]

/-- **The item sets are those that `goto` leads to from the first one.** -/
theorem mem_itemSets_iff (hps : ps ≠ []) :
    items ∈ itemSets ps ↔ ReflTransGen (Leads ps) (firstSet ps) items := by
  rw [mem_itemSets hps]
  simp only [Reachable, mem_next_iff_leads, List.mem_singleton, exists_eq_left]

theorem firstSet_ne_empty : firstSet ps ≠ ∅ := fun h =>
  OrdSet.eq_empty_iff.1 h _ (ItemSet.mem_closure_of_mem (OrdSet.mem_singleton.2 rfl))

theorem ne_empty_of_mem_itemSets (hps : ps ≠ []) (h : items ∈ itemSets ps) : items ≠ ∅ := by
  cases (mem_itemSets_iff hps).1 h with
  | refl => exact firstSet_ne_empty
  | tail _ hlast => exact hlast.choose_spec.2

/-- The worklist of item sets comes to its end. -/
theorem finishes_itemSets (hps : ps ≠ []) :
    Finishes (fun items => (successors ps items).map Prod.snd) [] [firstSet ps] (itemSets ps) :=
  finishes_explore (atMost_itemSets hps)

/-! ## Collections -/

/-- A collection consists of the item sets that `goto` leads to from the closure of the opening
item, each of them once, and its transitions are these steps. -/
structure IsGotoGraph (c : Collection) : Prop where
  nodup : (c.states.map CollectionState.items).Nodup
  first : c.items? 0 = some (ItemSet.closure c.productions (OrdSet.singleton openingItem))
  ne_empty : ∀ q items, c.items? q = some items → items ≠ ∅
  exists_state_iff : ∀ items, (∃ q, c.items? q = some items) ↔
    ReflTransGen (Leads c.productions)
      (ItemSet.closure c.productions (OrdSet.singleton openingItem)) items
  state_iff : ∀ q items, c.items? q = some items → ∀ x r,
    c.transition? q x = some (.state r) ↔
      items.goto c.productions x ≠ ∅ ∧ c.items? r = some (items.goto c.productions x)
  eq_none : ∀ q items, c.items? q = some items → ∀ x, x ≠ endMarker →
    items.goto c.productions x = ∅ → c.transition? q x = none
  endMarker_eq : ∀ q items, c.items? q = some items →
    c.transition? q endMarker = if completedItem ∈ items then some .accept else none

end Collection

namespace Grammar

open Collection

variable {g : Grammar} {items : ItemSet} {x : String} {q r : Nat}

theorem items?_ofGrammar : (ofGrammar g).items? q = (itemSets g.augmentedProductions)[q]? := by
  rw [items?, ofGrammar, List.getElem?_map, Option.map_map]
  exact Option.map_id'

theorem map_items_ofGrammar :
    (ofGrammar g).states.map CollectionState.items = itemSets g.augmentedProductions := by
  rw [ofGrammar, List.map_map]
  exact List.map_id' _

/-- A grammar does not use the end marker, so a state goes wherever `goto` leads it. -/
theorem Proper.goes_iff_goto (hg : g.Proper)
    (hq : (itemSets g.augmentedProductions)[q]? = some items) :
    g.Goes q x r ↔ items.goto g.augmentedProductions x ≠ ∅ ∧
      (itemSets g.augmentedProductions)[r]? = some (items.goto g.augmentedProductions x) := by
  rw [goes_iff hq, ItemSet.goto_ne_empty_iff]
  constructor
  · intro h
    obtain ⟨-, hsymbol, rfl⟩ := h
    have hmem := goto_mem_itemSets (List.cons_ne_nil _ _) (List.mem_of_getElem? hq) hsymbol
    exact ⟨hsymbol, List.getElem?_idxOf hmem⟩
  · intro h
    obtain ⟨hsymbol, hr⟩ := h
    refine ⟨fun hend => ?_, hsymbol, ?_⟩
    · obtain ⟨i, -, hnext⟩ := hsymbol
      exact hg.ne_endMarker_of_next? hnext hend.1
    · obtain ⟨hlt, hget⟩ := List.getElem?_eq_some_iff.1 hr
      rw [← hget, nodup_itemSets.idxOf_getElem]

/-- A symbol that stands after no dot of a state leads nowhere, acceptance apart. -/
theorem transition?_of_goto_eq_empty
    (hq : (itemSets g.augmentedProductions)[q]? = some items)
    (h : items.goto g.augmentedProductions x = ∅) :
    (ofGrammar g).transition? q x =
      if x = endMarker ∧ completedItem ∈ items then some .accept else none := by
  rw [transition?, ofGrammar, List.getElem?_map, hq, Option.map_some, Option.bind_some,
    CollectionState.transition?]
  refine if_congr Iff.rfl rfl ?_
  rw [Option.map_eq_none_iff, Option.eq_none_iff_forall_ne_some]
  intro n hn
  exact ItemSet.goto_ne_empty_iff.2 (lookup_moves.1 hn).1 h

theorem Proper.goto_endMarker (hg : g.Proper) :
    items.goto g.augmentedProductions endMarker = ∅ := by
  by_contra h
  obtain ⟨i, -, hnext⟩ := ItemSet.goto_ne_empty_iff.1 h
  exact hg.ne_endMarker_of_next? hnext rfl

theorem Proper.isGotoGraph (hg : g.Proper) : (ofGrammar g).IsGotoGraph where
  nodup := by
    rw [map_items_ofGrammar]
    exact nodup_itemSets
  first := by
    rw [items?_ofGrammar]
    exact itemSets_zero
  ne_empty := by
    intro q items hq
    rw [items?_ofGrammar] at hq
    exact ne_empty_of_mem_itemSets (List.cons_ne_nil _ _) (List.mem_of_getElem? hq)
  exists_state_iff := by
    intro items
    simp only [items?_ofGrammar]
    rw [← List.mem_iff_getElem?]
    exact mem_itemSets_iff (List.cons_ne_nil _ _)
  state_iff := by
    intro q items hq x r
    rw [items?_ofGrammar] at hq ⊢
    exact hg.goes_iff_goto hq
  eq_none := by
    intro q items hq x hx hempty
    rw [items?_ofGrammar] at hq
    rw [transition?_of_goto_eq_empty hq hempty, if_neg fun h => hx h.1]
  endMarker_eq := by
    intro q items hq
    rw [items?_ofGrammar] at hq
    rw [transition?_of_goto_eq_empty hq hg.goto_endMarker]
    simp only [true_and]

/-- **The collection of a grammar is the part of the `goto` graph that is reached from the opening
item of the production `S' → S`**, and the worklists, of closures and of item sets, come to their
ends with it. -/
theorem collection_spec {text : String} (h : read text = .ok g) :
    (ofGrammar g).productions[0]? = some ⟨(ofGrammar g).start, [g.start]⟩ ∧
      (∀ items : ItemSet, ∃ found,
        Finishes (ItemSet.predicted (ofGrammar g).productions) [] (newcomers [] items.toList)
          found ∧
          ItemSet.closure (ofGrammar g).productions items = OrdSet.ofList found) ∧
      Finishes (fun items => (successors (ofGrammar g).productions items).map Prod.snd) []
        [ItemSet.closure (ofGrammar g).productions (OrdSet.singleton openingItem)]
        ((ofGrammar g).states.map CollectionState.items) ∧
      (ofGrammar g).IsGotoGraph := by
  refine ⟨rfl, ItemSet.finishes_closure _, ?_, (proper_of_read h).isGotoGraph⟩
  rw [map_items_ofGrammar]
  exact finishes_itemSets (List.cons_ne_nil _ _)

/-- Pairs of parentheses, one after the other and one in the other. -/
def pairs : Grammar := ⟨"S", ⟨[("S", [["(", "S", ")", "S"], []])], by decide⟩⟩

/-- An opening parenthesis leads to one state, from wherever it is read, that state included. -/
theorem collection_spec_pairs :
    read "S ::= ( S ) S | &" = .ok pairs ∧ (ofGrammar pairs).IsGotoGraph ∧
      (∀ q ∈ [0, 2, 4], (ofGrammar pairs).transition? q "(" = some (.state 2)) ∧
      (ofGrammar pairs).transition? 1 endMarker = some .accept ∧
      (ofGrammar pairs).transition? 5 endMarker = none := by
  have hread : read "S ::= ( S ) S | &" = .ok pairs := by decide +kernel
  obtain ⟨-, -, -, hgraph⟩ := collection_spec hread
  have hopened : ∀ q ∈ [0, 2, 4], ∃ items, (ofGrammar pairs).items? q = some items ∧
      items.goto (ofGrammar pairs).productions "(" ≠ ∅ ∧
      (ofGrammar pairs).items? 2 = some (items.goto (ofGrammar pairs).productions "(") := by
    intro q hq
    simp only [List.mem_cons, List.not_mem_nil, or_false] at hq
    rcases hq with rfl | rfl | rfl
    · exact ⟨_, rfl, by decide +kernel, by decide +kernel⟩
    · exact ⟨_, rfl, by decide +kernel, by decide +kernel⟩
    · exact ⟨_, rfl, by decide +kernel, by decide +kernel⟩
  refine ⟨hread, hgraph, fun q hq => ?_, ?_, ?_⟩
  · obtain ⟨items, hitems, hgoto⟩ := hopened q hq
    exact (hgraph.state_iff q items hitems "(" 2).2 hgoto
  · exact (hgraph.endMarker_eq 1 _ rfl).trans (by decide +kernel)
  · exact (hgraph.endMarker_eq 5 _ rfl).trans (by decide +kernel)

end Grammar

end Frontend
