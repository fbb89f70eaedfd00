import Frontend.Proofs.LR.Augmented
import Frontend.Proofs.LR.Completeness
import Frontend.Proofs.LR.Soundness

/-!
# Viable prefixes

An item is *valid* for a string of symbols if a rightmost derivation comes to a string in which
the body of its production ends before terminals, and what stands before the dot ends the
string (`Grammar.ValidFor`). The strings that an item is valid for are the viable prefixes, and
the collection recognises them: `mem_state_iff_validFor` says that its transitions lead along a
string exactly if there is a valid item, and then to the state of all valid items.

One half is an invariant of the construction: to predict a production keeps the items valid
(`ValidFor.opening`), provided that the symbols behind the predicted one derive a word, and to
move the dots over a symbol makes them valid for one symbol more (`ValidFor.advance`). The other
half is an induction on the number of steps of a derivation (`exists_state_before`): a
nonterminal was brought in by a body in an earlier string, and the collection leads to the
state before it and along the body.

The states on a stack are those along a viable prefix. So what a parser has read begins a sentence
(`Runs.exists_rightmost`).
-/

namespace Frontend

namespace Collection

/-- The state in which the transitions along a string of symbols end, if none is missing. -/
def walk? (c : Collection) : Nat → List String → Option Nat
  | q, [] => some q
  | q, x :: rest =>
    match c.transition? q x with
    | some (.state r) => c.walk? r rest
    | _ => none

theorem walk?_append (c : Collection) (q : Nat) (front rest : List String) :
    c.walk? q (front ++ rest) = (c.walk? q front).bind fun r => c.walk? r rest := by
  induction front generalizing q with
  | nil => rfl
  | cons x front ih =>
    rw [List.cons_append, walk?, walk?]
    split
    · exact ih _
    · rfl

end Collection

namespace Grammar

open Collection

variable {g : Grammar} {q r n d : Nat} {i : Item} {x : String} {p : Production}
  {γ : List String}

/-! ## Walks -/

theorem Goes.walk? (h : g.Goes q x r) (rest : List String) :
    (ofGrammar g).walk? q (x :: rest) = (ofGrammar g).walk? r rest := by
  rw [Collection.walk?, show (ofGrammar g).transition? q x = some (.state r) from h]

theorem exists_goes_of_walk? {rest : List String}
    (h : (ofGrammar g).walk? q (x :: rest) = some r) :
    ∃ q', g.Goes q x q' ∧ (ofGrammar g).walk? q' rest = some r := by
  rw [Collection.walk?] at h
  split at h
  · next q' hgoes => exact ⟨q', hgoes, h⟩
  · cases h

theorem hasItem_iff :
    g.HasItem q i ↔ ∃ items, (ofGrammar g).items? q = some items ∧ i ∈ items := by
  have hitems : (ofGrammar g).items? q = (itemSets g.augmentedProductions)[q]? := by
    rw [items?, ofGrammar, List.getElem?_map, Option.map_map]
    exact Option.map_id'
  rw [hitems, HasItem]

/-- A state that a transition leads to has an item. -/
theorem Goes.exists_hasItem (h : g.Goes q x r) : ∃ i, g.HasItem r i := by
  obtain ⟨items, -, ⟨i, hi, hnext⟩, hr⟩ := h.items
  exact ⟨i.advance, _, hr, ItemSet.advance_mem_goto hi hnext⟩

theorem exists_hasItem_of_walk? {rest : List String} (h : (ofGrammar g).walk? q rest = some r)
    (hq : ∃ i, g.HasItem q i) : ∃ i, g.HasItem r i := by
  induction rest generalizing q with
  | nil =>
    obtain rfl := Option.some.inj h
    exact hq
  | cons x rest ih =>
    obtain ⟨q', hgoes, hwalk⟩ := exists_goes_of_walk? h
    exact ih hwalk hgoes.exists_hasItem

/-- The collection leads along what stands behind the dot of an item. -/
theorem HasItem.exists_walk? {body rest : List String} (hg : g.Proper) (h : g.HasItem q ⟨n, d⟩)
    (hp : g.augmentedProductions[n]? = some p) (hdrop : p.body.drop d = body ++ rest) :
    ∃ r, (ofGrammar g).walk? q body = some r ∧ g.HasItem r ⟨n, d + body.length⟩ := by
  induction body generalizing q d with
  | nil => exact ⟨q, rfl, h⟩
  | cons x body ih =>
    obtain ⟨-, hdrop', q', hgoes, hitem⟩ := h.exists_goes hg hp hdrop
    obtain ⟨r, hwalk, hr⟩ := ih hitem hdrop'
    refine ⟨r, (hgoes.walk? body).trans hwalk, ?_⟩
    rw [List.length_cons, Nat.add_comm body.length, ← Nat.add_assoc]
    exact hr

/-! ## Valid items -/

/-- A rightmost derivation of the augmented grammar comes to a string in which terminals follow
the head of the item's production, and rewrites this head next. The symbols are what stands
before the head and what stands before the dot. -/
def ValidFor (g : Grammar) (γ : List String) (i : Item) : Prop :=
  ∃ p α β δ w ps, g.augmentedProductions[i.production]? = some p ∧ p.body = α ++ β ∧
    i.dot = α.length ∧ g.augmented.NoNonterminals w ∧
      g.augmented.Rightmost ps [g.augmentedStart] (δ ++ p.head :: w) ∧
        g.augmented.Rightmost [p] (δ ++ p.head :: w) (δ ++ α ++ β ++ w) ∧ γ = δ ++ α

/-- The step that rewrites the head of a production. -/
theorem rightmost_augmented_body {α β δ w : List String} (hp : p ∈ g.augmentedProductions)
    (hbody : p.body = α ++ β) (hw : g.augmented.NoNonterminals w) :
    g.augmented.Rightmost [p] (δ ++ p.head :: w) (δ ++ α ++ β ++ w) := by
  refine .step hp hw ?_
  rw [hbody, ← List.append_assoc]
  exact .refl _

/-- Nothing is read where the start production is opened. -/
theorem validFor_openingItem : g.ValidFor [] openingItem := by
  refine ⟨⟨g.augmentedStart, [g.start]⟩, [], [g.start], [], [], [], rfl, rfl, rfl,
    List.forall_mem_nil _, .refl _, ?_, rfl⟩
  exact rightmost_augmented_body List.mem_cons_self rfl (List.forall_mem_nil _)

namespace ValidFor

/-- **A production that a valid item predicts is valid**: what stands behind its head derives
a word. -/
theorem opening (hg : g.Proper) (hends : g.NoDeadEnds) (h : g.ValidFor γ i)
    (hnext : i.next? g.augmentedProductions = some p.head)
    (hp : g.augmentedProductions[n]? = some p) : g.ValidFor γ ⟨n, 0⟩ := by
  obtain ⟨p', α, β, δ, w, ps, hp', hbody, hdot, hw, hderiv, hstep, rfl⟩ := h
  obtain ⟨p'', hp'', hsymbol⟩ := Item.next?_eq_some_iff.1 hnext
  obtain rfl := Option.some.inj (hp'.symm.trans hp'')
  rw [hbody, hdot] at hsymbol
  obtain ⟨β, rfl⟩ := List.exists_eq_cons_of_getElem?_append hsymbol
  have hall := hderiv.trans hstep
  obtain ⟨qs, hqs⟩ := exists_rightmost_of_augmented hg.start_isNonterminal hall (by simp)
  -- What stands behind it derives a word, and so the head comes to stand before terminals.
  have hfront : g.Derives [g.start] ((δ ++ α ++ [p.head]) ++ (β ++ w)) := by
    simpa using hqs.derives
  obtain ⟨v, rs, hyields⟩ := hends.exists_yields hfront
  have hrest : g.augmentedStart ∉ β ++ w := by
    rw [List.mem_append, not_or]
    refine ⟨fun hmem => ?_, (noNonterminals_augmented_iff.1 hw).1⟩
    exact augmentedStart_not_mem_augmented_body hg (List.mem_of_getElem? hp')
      (by rw [hbody]; simp [hmem])
  have hv : g.augmented.NoNonterminals v := noNonterminals_augmented_iff.2
    ⟨hyields.rightmost.augmentedStart_not_mem hrest, hyields.noNonterminals⟩
  have hlift := ((rightmost_augmented_iff hrest).2 hyields.rightmost).append_left
    (δ ++ α ++ [p.head])
  refine ⟨p, [], p.body, δ ++ α, v, ps ++ [p'] ++ rs, hp, rfl, rfl, hv, ?_, ?_, by simp⟩
  · refine hall.trans ?_
    simpa using hlift
  · simpa using rightmost_augmented_body (α := []) (δ := δ ++ α) (List.mem_of_getElem? hp) rfl hv

/-- **A dot that is moved over a symbol** gives an item that is valid for one symbol more. -/
theorem advance (h : g.ValidFor γ i) (hnext : i.next? g.augmentedProductions = some x) :
    g.ValidFor (γ ++ [x]) i.advance := by
  obtain ⟨p, α, β, δ, w, ps, hp, hbody, hdot, hw, hderiv, -, rfl⟩ := h
  obtain ⟨p', hp', hsymbol⟩ := Item.next?_eq_some_iff.1 hnext
  obtain rfl := Option.some.inj (hp.symm.trans hp')
  rw [hbody, hdot] at hsymbol
  obtain ⟨β, rfl⟩ := List.exists_eq_cons_of_getElem?_append hsymbol
  have hbody : p.body = (α ++ [x]) ++ β := by simpa using hbody
  refine ⟨p, α ++ [x], β, δ, w, ps, hp, hbody, ?_, hw, hderiv,
    rightmost_augmented_body (List.mem_of_getElem? hp) hbody hw, List.append_assoc ..⟩
  rw [Item.advance, hdot, List.length_append, List.length_singleton]

end ValidFor

/-! ## Every item is valid -/

/-- A closure of valid items holds valid items only. -/
theorem validFor_of_mem_closure {items : ItemSet} (hg : g.Proper) (hends : g.NoDeadEnds)
    (h : ∀ i ∈ items, g.ValidFor γ i) :
    ∀ i ∈ ItemSet.closure g.augmentedProductions items, g.ValidFor γ i := by
  intro i hi
  refine (ItemSet.mem_closure.1 hi).induction h fun i j hvalid hj => ?_
  obtain ⟨symbol, hnext, hj⟩ := ItemSet.mem_predicted.1 hj
  obtain ⟨hdot, p, hp, rfl⟩ := ItemSet.mem_opening.1 hj
  obtain ⟨n, d⟩ := j
  obtain rfl : d = 0 := hdot
  exact hvalid.opening hg hends hnext hp

theorem validFor_of_hasItem_zero (hg : g.Proper) (hends : g.NoDeadEnds) (h : g.HasItem 0 i) :
    g.ValidFor [] i := by
  obtain ⟨items, hq, hi⟩ := h
  rw [itemSets_zero] at hq
  obtain rfl := Option.some.inj hq
  refine validFor_of_mem_closure hg hends (fun i hi => ?_) i hi
  rw [OrdSet.mem_singleton.1 hi]
  exact validFor_openingItem

theorem Goes.validFor (hg : g.Proper) (hends : g.NoDeadEnds) (h : g.Goes q x r)
    (hq : ∀ i, g.HasItem q i → g.ValidFor γ i) (hi : g.HasItem r i) :
    g.ValidFor (γ ++ [x]) i := by
  obtain ⟨items, hitems, -, hr⟩ := h.items
  obtain ⟨items', hr', hi⟩ := hi
  rw [hr] at hr'
  obtain rfl := Option.some.inj hr'
  refine validFor_of_mem_closure hg hends (fun i hi => ?_) i hi
  obtain ⟨j, hj, hnext, rfl⟩ := ItemSet.mem_moved.1 hi
  exact (hq j ⟨items, hitems, hj⟩).advance hnext

/-- From a state of valid items the collection leads to states of valid items. -/
theorem validFor_of_walk? {rest : List String} (hg : g.Proper) (hends : g.NoDeadEnds)
    (h : (ofGrammar g).walk? q rest = some r) (hq : ∀ i, g.HasItem q i → g.ValidFor γ i) :
    ∀ i, g.HasItem r i → g.ValidFor (γ ++ rest) i := by
  induction rest generalizing q γ with
  | nil =>
    obtain rfl := Option.some.inj h
    rwa [List.append_nil]
  | cons x rest ih =>
    obtain ⟨q', hgoes, hwalk⟩ := exists_goes_of_walk? h
    have hvalid := ih hwalk fun i hi => hgoes.validFor hg hends hq hi
    simpa using hvalid

/-! ## Every valid item is there -/

/-- **The collection leads to where a nonterminal is open**: along what stands before it, in a
string of a rightmost derivation, it comes to a state that opens the productions of the
nonterminal. -/
theorem exists_state_before {δ w : List String} {s : String} {ps : List Production}
    (hg : g.Proper) (h : g.augmented.Rightmost ps [g.augmentedStart] (δ ++ s :: w))
    (hs : g.augmented.isNonterminal s = true) :
    ∃ q, (ofGrammar g).walk? 0 δ = some q ∧
      ∀ n p, g.augmentedProductions[n]? = some p → p.head = s → g.HasItem q ⟨n, 0⟩ := by
  rcases h.origin rfl hs with
    ⟨rest, heq⟩ | ⟨qs, p, α, β, before, after, hlt, hqs, hafter, hp, hbody, rfl⟩
  · -- It is the new start symbol, which heads the first production only.
    obtain ⟨rfl, hcons⟩ | ⟨-, hnil⟩ := List.append_eq_singleton_iff.1 heq.symm
    · refine ⟨0, rfl, fun n p hp hhead => ?_⟩
      obtain rfl := (List.cons.inj hcons).1
      obtain rfl : n = 0 := eq_zero_of_head_eq_augmentedStart hp hhead
      exact hasItem_zero
    · cases hnil
  · -- The production that brought it in is open before its body.
    obtain ⟨q, hwalk, hopen⟩ := exists_state_before hg hqs (isNonterminal_head hp)
    obtain ⟨m, hm⟩ := List.getElem?_of_mem (l := g.augmentedProductions) hp
    obtain ⟨r, hwalk', hitem⟩ := (hopen m p hm rfl).exists_walk? hg hm hbody
    refine ⟨r, by rw [walk?_append, hwalk]; exact hwalk', fun n p' hp' hhead => ?_⟩
    refine hitem.opening (p := p') (Item.next?_eq_some_iff.2 ⟨p, hm, ?_⟩) hp'
    rw [hbody, hhead]
    simp
termination_by ps.length

/-- An item that is valid for a string of symbols is in the state to which it leads. -/
theorem ValidFor.exists_state (hg : g.Proper) (h : g.ValidFor γ i) :
    ∃ q, (ofGrammar g).walk? 0 γ = some q ∧ g.HasItem q i := by
  obtain ⟨p, α, β, δ, w, ps, hp, hbody, hdot, -, hderiv, -, rfl⟩ := h
  have hhead : g.augmented.isNonterminal p.head = true :=
    isNonterminal_head (g := g.augmented) (List.mem_of_getElem? hp)
  obtain ⟨q, hwalk, hopen⟩ := exists_state_before hg hderiv hhead
  obtain ⟨r, hwalk', hitem⟩ := (hopen _ p hp rfl).exists_walk? hg hp hbody
  refine ⟨r, by rw [walk?_append, hwalk]; exact hwalk', ?_⟩
  rw [Nat.zero_add, ← hdot] at hitem
  exact hitem

/-- **The viable prefix theorem**: if every nonterminal derives a word, then the transitions lead
from the first state along a string of symbols to the state of the items that are valid for it,
and they do not lead along it exactly if no item is valid. -/
theorem mem_state_iff_validFor {text : String} (hread : Grammar.read text = .ok g)
    (hproductive : g.Productive) (γ : List String) :
    (∀ i, (∃ q, (ofGrammar g).walk? 0 γ = some q ∧
          ∃ items, (ofGrammar g).items? q = some items ∧ i ∈ items) ↔ g.ValidFor γ i) ∧
      ((ofGrammar g).walk? 0 γ = none ↔ ∀ i, ¬ g.ValidFor γ i) := by
  have hg := proper_of_read hread
  have hvalid : ∀ q, (ofGrammar g).walk? 0 γ = some q → ∀ i, g.HasItem q i → g.ValidFor γ i :=
    fun q hwalk => validFor_of_walk? hg hproductive.noDeadEnds hwalk
      fun i => validFor_of_hasItem_zero hg hproductive.noDeadEnds
  simp only [← hasItem_iff]
  refine ⟨fun i => ⟨fun h => ?_, fun h => h.exists_state hg⟩, fun hnone i hi => ?_, fun hno => ?_⟩
  · obtain ⟨q, hwalk, hi⟩ := h
    exact hvalid q hwalk i hi
  · obtain ⟨q, hwalk, -⟩ := hi.exists_state hg
    cases hnone.symm.trans hwalk
  · -- A state to which the string leads would hold an item.
    cases hwalk : (ofGrammar g).walk? 0 γ with
    | none => rfl
    | some q =>
      obtain ⟨i, hi⟩ := exists_hasItem_of_walk? hwalk ⟨_, hasItem_zero⟩
      exact absurd (hvalid q hwalk i hi) (hno i)

/-- Left recursion that an empty body hides. -/
def hidden : Grammar :=
  ⟨"S", ⟨[("S", [["A", "S", "b"], ["c"]]), ("A", [["a"], []])], by decide⟩⟩

/-- The recursion can go round on the empty body, and the start symbol is not followed by
itself. -/
theorem mem_state_iff_validFor_hidden :
    Grammar.read "S ::= A S b | c\nA ::= a | &" = .ok hidden ∧ hidden.Productive ∧
      hidden.ValidFor ["A", "A", "S"] ⟨1, 2⟩ ∧ ∀ i, ¬ hidden.ValidFor ["S", "S"] i := by
  have hread : Grammar.read "S ::= A S b | c\nA ::= a | &" = .ok hidden := by decide +kernel
  have hc : hidden.Derives ["S"] ["c"] :=
    .single (.replace [] [] (p := ⟨"S", ["c"]⟩) (by decide))
  have hempty : hidden.Derives ["A"] [] := .single (.replace [] [] (p := ⟨"A", []⟩) (by decide))
  have hproductive : hidden.Productive := productive_iff.2 <|
    List.forall_mem_cons.2 ⟨⟨_, by decide, hc⟩, List.forall_mem_singleton.2 ⟨_, by decide, hempty⟩⟩
  refine ⟨hread, hproductive, ?_, ?_⟩
  · refine ((mem_state_iff_validFor hread hproductive _).1 _).1 ⟨5, by decide +kernel, ?_⟩
    exact ⟨_, rfl, by decide +kernel⟩
  · exact (mem_state_iff_validFor hread hproductive _).2.1 (by decide +kernel)

/-! ## Stacks -/

/-- A stack holds the states that the collection passes through. -/
theorem Spells.walk? {below : List Nat} (h : g.Spells (q :: below) γ) :
    (ofGrammar g).walk? 0 γ = some q := by
  generalize hstack : q :: below = stack at h
  induction h generalizing q below with
  | bottom =>
    obtain ⟨rfl, rfl⟩ := List.cons.inj hstack
    rfl
  | @push q' r below' spelt x _ hgoes ih =>
    obtain ⟨rfl, rfl⟩ := List.cons.inj hstack
    rw [walk?_append, ih rfl, Option.bind_some, hgoes.walk?, Collection.walk?]

/-- **What a stack spells begins a string of a rightmost derivation**, and terminals follow. -/
theorem Spells.exists_rightmost {stack : List Nat} (hg : g.Proper) (hends : g.NoDeadEnds)
    (h : g.Spells stack γ) :
    ∃ v ps, g.NoNonterminals v ∧ g.Rightmost ps [g.start] (γ ++ v) := by
  obtain ⟨q, below, rfl⟩ := h.exists_top
  obtain ⟨i, hi⟩ := exists_hasItem_of_walk? h.walk? ⟨_, hasItem_zero⟩
  obtain ⟨p, α, β, δ, w, ps, -, -, -, -, hderiv, hstep, rfl⟩ :=
    validFor_of_walk? (γ := []) hg hends h.walk? (fun i => validFor_of_hasItem_zero hg hends) i hi
  obtain ⟨qs, hqs⟩ :=
    exists_rightmost_of_augmented hg.start_isNonterminal (hderiv.trans hstep) (by simp)
  rw [List.append_assoc _ β] at hqs
  obtain ⟨v, rs, hyields⟩ := hends.exists_yields hqs.derives
  exact ⟨v, qs ++ rs, hyields.noNonterminals, hqs.trans (hyields.rightmost.append_left _)⟩

end Grammar

/-- **What a parser has read begins a sentence**: with the reductions that it made, the string on
its stack derives the tokens read, and terminals can be found that make it one that the start
symbol derives. -/
theorem ParseTable.Runs.exists_rightmost {g : Grammar} {tokens : List String}
    {ms : List ParseMove} {d : Configuration} (hg : g.Proper) (hends : g.NoDeadEnds)
    (h : (ofGrammar g).Runs (.initial tokens) ms d) :
    ∃ spelt v ps, g.Rightmost ps [g.start] (spelt ++ v) ∧ g.NoNonterminals v ∧
      g.Rightmost (reductionsOf ms).reverse spelt (tokens.take (shiftsOf ms)) ∧
        g.NoNonterminals (tokens.take (shiftsOf ms)) ∧ shiftsOf ms ≤ tokens.length := by
  obtain ⟨spelt, read, rest, hd, rfl, hlength, hread, hderiv⟩ := spelling_initial.run hg h
  obtain ⟨v, ps, hv, hps⟩ := hd.stack.exists_rightmost hg hends
  rw [← hlength, List.take_left]
  exact ⟨spelt, v, ps, hps, hv, hderiv, hread, by simp⟩

end Frontend
