import Frontend.LR.Collection
import Frontend.Proofs.LR.Augmented
import Frontend.Proofs.Searches

/-!
# Closures of item sets

The closure of a set of items is the least closed set that holds them
(`ItemSet.isLeastClosed_closure`), and `goto` is the least one that holds the items whose dots were
moved. The laws of closures follow from this alone, without a look at the worklist: closing is a
closure operator, and the union of two closed sets is closed, so closures and `goto` go over to
unions (`ItemSet.closure_union`, `ItemSet.goto_union`).

The worklist itself may take what waits in any order, and may leave out symbols that are no
nonterminals of the grammar: of the augmented productions only the first has a head that is none,
and that head stands after no dot (`Grammar.Proper.openedBy_eq`). `Grammar.closure_spec` puts this
together.
-/

namespace Frontend

open Relation (ReflTransGen)

namespace ItemSet

variable {ps : List Production} {items other : ItemSet} {symbol : String}

/-! ## Closed sets -/

/-- With an item, the set holds the openings of all productions of the symbol after its dot. -/
def IsClosed (ps : List Production) (items : ItemSet) : Prop :=
  ∀ i ∈ items, ∀ n p, ps[n]? = some p → i.next? ps = some p.head → ⟨n, 0⟩ ∈ items

/-- Of the closed sets that hold all items with a property, this is the least. -/
structure IsLeastClosed (ps : List Production) (base : Item → Prop) (items : ItemSet) :
    Prop where
  holds : ∀ i, base i → i ∈ items
  closed : IsClosed ps items
  least : ∀ other : ItemSet, (∀ i, base i → i ∈ other) → IsClosed ps other →
    ∀ i ∈ items, i ∈ other

theorem IsClosed.union (h : IsClosed ps items) (h' : IsClosed ps other) :
    IsClosed ps (items ∪ other) := by
  intro i hi n p hp hnext
  rcases OrdSet.mem_union.1 hi with hi | hi
  · exact OrdSet.mem_union.2 (.inl (h i hi n p hp hnext))
  · exact OrdSet.mem_union.2 (.inr (h' i hi n p hp hnext))

/-- What an item brings in belongs to every closed set that holds the item. -/
theorem IsClosed.predicted {i j : Item} (h : IsClosed ps items) (hi : i ∈ items)
    (hj : j ∈ predicted ps i) : j ∈ items := by
  obtain ⟨symbol, hnext, hj⟩ := mem_predicted.1 hj
  obtain ⟨hdot, p, hp, rfl⟩ := mem_opening.1 hj
  have hopening := h i hi j.production p hp hnext
  rwa [← hdot] at hopening

/-- **A closure is the least closed set that holds the given items.** -/
theorem isLeastClosed_closure (ps : List Production) (items : ItemSet) :
    IsLeastClosed ps (· ∈ items) (closure ps items) where
  holds := fun _ hi => mem_closure_of_mem hi
  closed := fun _ hi _ _ hp hnext => opening_mem_closure hi hnext hp
  least := fun _ hbase hclosed _ hi =>
    (mem_closure.1 hi).induction hbase fun _ _ hi hj => hclosed.predicted hi hj

/-- `goto` gives the least closed set that holds the items whose dots were moved. -/
theorem isLeastClosed_goto (ps : List Production) (items : ItemSet) (symbol : String) :
    IsLeastClosed ps (fun i => ∃ j ∈ items, j.next? ps = some symbol ∧ j.advance = i)
      (goto ps items symbol) := by
  have h := isLeastClosed_closure ps
    (OrdSet.map Item.advance (items.filter fun i => i.next? ps == some symbol))
  simp only [mem_moved] at h
  exact h

/-! ## The laws of closures -/

/-- An operation on item sets that adds items, keeps inclusions, and adds nothing the second
time. -/
structure IsClosureOperator (f : ItemSet → ItemSet) : Prop where
  extensive : ∀ items : ItemSet, ∀ i ∈ items, i ∈ f items
  monotone : ∀ items other : ItemSet, (∀ i ∈ items, i ∈ other) → ∀ i ∈ f items, i ∈ f other
  idempotent : ∀ items : ItemSet, f (f items) = f items

theorem closure_mono (h : ∀ i ∈ items, i ∈ other) :
    ∀ i ∈ closure ps items, i ∈ closure ps other :=
  (isLeastClosed_closure ps items).least _ (fun i hi => mem_closure_of_mem (h i hi))
    (isLeastClosed_closure ps other).closed

theorem isClosureOperator_closure (ps : List Production) : IsClosureOperator (closure ps) where
  extensive := fun _ _ hi => mem_closure_of_mem hi
  monotone := fun _ _ h => closure_mono h
  idempotent := by
    intro items
    ext i
    constructor
    · have hclosed := (isLeastClosed_closure ps items).closed
      exact (isLeastClosed_closure ps _).least _ (fun _ hi => hi) hclosed i
    · exact mem_closure_of_mem

/-- **The closure of a union is the union of the closures.** -/
theorem closure_union (ps : List Production) (items other : ItemSet) :
    closure ps (items ∪ other) = closure ps items ∪ closure ps other := by
  have hclosed : IsClosed ps (closure ps items ∪ closure ps other) :=
    (isLeastClosed_closure ps items).closed.union (isLeastClosed_closure ps other).closed
  ext i
  constructor
  · refine (isLeastClosed_closure ps _).least _ (fun i hi => ?_) hclosed i
    rw [OrdSet.mem_union] at hi ⊢
    exact hi.imp mem_closure_of_mem mem_closure_of_mem
  · intro hi
    rcases OrdSet.mem_union.1 hi with hi | hi
    · exact closure_mono (fun _ hj => OrdSet.mem_union.2 (.inl hj)) i hi
    · exact closure_mono (fun _ hj => OrdSet.mem_union.2 (.inr hj)) i hi

/-- **`goto` distributes over unions.** -/
theorem goto_union (ps : List Production) (items other : ItemSet) (symbol : String) :
    goto ps (items ∪ other) symbol = goto ps items symbol ∪ goto ps other symbol := by
  rw [goto, goto, goto, ← closure_union]
  congr 1
  ext i
  rw [OrdSet.mem_union, mem_moved, mem_moved, mem_moved]
  simp only [OrdSet.mem_union, or_and_right, exists_or]

theorem isValid_of_fits (h : ∀ i ∈ items, i.Fits ps) : items.isValid ps = true := by
  refine List.all_eq_true.2 fun i hi => ?_
  obtain ⟨p, hp, -⟩ := h i hi
  obtain ⟨hlt, -⟩ := List.getElem?_eq_some_iff.1 hp
  exact decide_eq_true hlt

end ItemSet

namespace Grammar

open Collection

variable {g : Grammar}

/-! ## The worklist of a closure -/

/-- The items that an item brings in, provided that a nonterminal stands after its dot. -/
def openedBy (g : Grammar) (i : Item) : List Item :=
  match i.next? g.augmentedProductions with
  | some symbol =>
    if g.isNonterminal symbol then ItemSet.opening g.augmentedProductions symbol else []
  | none => []

/-- No production of the augmented grammar opens a symbol after a dot that is no nonterminal. -/
theorem Proper.opening_eq_nil (hg : g.Proper) {i : Item} {symbol : String}
    (hnext : i.next? g.augmentedProductions = some symbol)
    (hsymbol : g.isNonterminal symbol = false) :
    ItemSet.opening g.augmentedProductions symbol = [] := by
  refine List.eq_nil_iff_forall_not_mem.2 fun j hj => ?_
  obtain ⟨-, p, hp, rfl⟩ := ItemSet.mem_opening.1 hj
  obtain ⟨q, hq, hbody⟩ := Item.next?_eq_some_iff.1 hnext
  rcases List.mem_cons.1 (List.mem_of_getElem? hp) with rfl | hp
  · -- The new start symbol stands in no body.
    exact augmentedStart_not_mem_augmented_body hg (List.mem_of_getElem? hq)
      (List.mem_of_getElem? hbody)
  · rw [isNonterminal_head hp] at hsymbol
    cases hsymbol

/-- To ask whether a symbol is a nonterminal makes no difference. -/
theorem Proper.openedBy_eq (hg : g.Proper) :
    g.openedBy = ItemSet.predicted g.augmentedProductions := by
  funext i
  unfold openedBy ItemSet.predicted
  cases hnext : i.next? g.augmentedProductions with
  | none => rfl
  | some symbol =>
    dsimp only
    cases hsymbol : g.isNonterminal symbol with
    | true => rfl
    | false => exact (hg.opening_eq_nil hnext hsymbol).symm

/-- **Closing item sets is a closure operator, and `goto` distributes over unions.** Over the
augmented productions of a grammar, every search for the items that are brought in comes to its end,
in whatever order it goes on, and finds the closure. This is the least closed set that holds the
given items; so closing is a closure operator that goes over to unions, and so does `goto`. -/
theorem closure_spec {text : String} (h : read text = .ok g) :
    (∀ items : ItemSet, (∀ i ∈ items, i.Fits g.augmentedProductions) →
      Acc (fun later now => SearchState.Expands g.openedBy now later) (.initial items.toList) ∧
      (∀ s, ReflTransGen (SearchState.Expands g.openedBy) (.initial items.toList) s →
        s.todo = [] → ∀ i, i ∈ s.found ↔ i ∈ items.closure g.augmentedProductions) ∧
      (ofGrammar g).closure? items = some (items.closure g.augmentedProductions) ∧
      ∀ symbol, (ofGrammar g).goto? items symbol =
        some (items.goto g.augmentedProductions symbol)) ∧
    (∀ items : ItemSet, ItemSet.IsLeastClosed g.augmentedProductions (· ∈ items)
      (items.closure g.augmentedProductions)) ∧
    (∀ (items : ItemSet) symbol, ItemSet.IsLeastClosed g.augmentedProductions
      (fun i => ∃ j ∈ items, j.next? g.augmentedProductions = some symbol ∧ j.advance = i)
      (items.goto g.augmentedProductions symbol)) ∧
    ItemSet.IsClosureOperator (ItemSet.closure g.augmentedProductions) ∧
    (∀ I J : ItemSet, (I ∪ J : ItemSet).closure g.augmentedProductions =
      I.closure g.augmentedProductions ∪ J.closure g.augmentedProductions) ∧
    ∀ (I J : ItemSet) symbol, (I ∪ J : ItemSet).goto g.augmentedProductions symbol =
      I.goto g.augmentedProductions symbol ∪ J.goto g.augmentedProductions symbol := by
  refine ⟨fun items hitems => ?_, ItemSet.isLeastClosed_closure _, ItemSet.isLeastClosed_goto _,
    ItemSet.isClosureOperator_closure _, ItemSet.closure_union _, ItemSet.goto_union _⟩
  have hvalid : items.isValid (ofGrammar g).productions = true := ItemSet.isValid_of_fits hitems
  rw [(proper_of_read h).openedBy_eq]
  refine ⟨SearchState.acc_initial ItemSet.atMost_reachable, fun s hrun hdone i => ?_,
    if_pos hvalid, fun symbol => if_pos hvalid⟩
  rw [SearchState.mem_found_iff hrun hdone, ItemSet.mem_closure]

/-- Two nonterminals with productions that begin with each other, so that each brings the other
in. -/
def alternating : Grammar :=
  ⟨"A", ⟨[("A", [["B", "a"], ["a"]]), ("B", [["A", "b"], ["B", "c"]])], by decide⟩⟩

/-- The search takes the latest first, and meets `A` again when it is almost done. What `goto` gives
for two sets in one is what it gives for each of them. -/
theorem closure_spec_alternating :
    read "A ::= B a | a\nB ::= A b | B c" = .ok alternating ∧
      (∃ s, ReflTransGen (SearchState.Expands alternating.openedBy) (.initial [⟨0, 0⟩]) s ∧
        s.todo = [] ∧ ∀ i, i ∈ s.found ↔
          i ∈ ItemSet.closure alternating.augmentedProductions (OrdSet.singleton ⟨0, 0⟩)) ∧
      (ofGrammar alternating).closure? (OrdSet.singleton ⟨0, 0⟩) =
        some (OrdSet.ofList [⟨0, 0⟩, ⟨1, 0⟩, ⟨2, 0⟩, ⟨3, 0⟩, ⟨4, 0⟩]) ∧
      ItemSet.goto alternating.augmentedProductions
        (OrdSet.singleton ⟨1, 0⟩ ∪ OrdSet.singleton ⟨4, 0⟩) "B" =
          OrdSet.singleton ⟨1, 1⟩ ∪ OrdSet.singleton ⟨4, 1⟩ := by
  have hread : read "A ::= B a | a\nB ::= A b | B c" = .ok alternating := by decide +kernel
  obtain ⟨hsearch, -, -, -, -, hgoto⟩ := closure_spec hread
  have hfits : ∀ i ∈ (OrdSet.singleton ⟨0, 0⟩ : ItemSet),
      i.Fits alternating.augmentedProductions := by
    intro i hi
    rw [OrdSet.mem_singleton.1 hi]
    exact ⟨_, rfl, Nat.zero_le _⟩
  obtain ⟨-, hfound, hclosure, -⟩ := hsearch _ hfits
  have hrun : ReflTransGen (SearchState.Expands alternating.openedBy) (.initial [⟨0, 0⟩])
      ⟨[⟨3, 0⟩, ⟨4, 0⟩, ⟨1, 0⟩, ⟨2, 0⟩, ⟨0, 0⟩], []⟩ :=
    .head ⟨⟨0, 0⟩, by decide, rfl⟩ <| .head ⟨⟨2, 0⟩, by decide +kernel, rfl⟩ <|
      .head ⟨⟨1, 0⟩, by decide +kernel, rfl⟩ <| .head ⟨⟨4, 0⟩, by decide +kernel, rfl⟩ <|
        .single ⟨⟨3, 0⟩, by decide +kernel, by decide +kernel⟩
  refine ⟨hread, ⟨_, hrun, rfl, hfound _ hrun rfl⟩, hclosure.trans (by decide +kernel), ?_⟩
  rw [hgoto]
  decide +kernel

end Grammar

end Frontend
