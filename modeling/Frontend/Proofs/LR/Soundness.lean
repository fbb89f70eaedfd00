import Frontend.Proofs.Grammar.Reading
import Frontend.Proofs.LR.Cells
import Frontend.Proofs.LR.Runs

/-!
# Accepted inputs are sentences

The states on the stack of a parser are those that the collection passes through on some
string of symbols, from the bottom up (`Grammar.Spells`). A complete item in the top state
says that its body ends the string, so a reduction replaces this body by its head
(`Spells.pop`).

`Spelling.step` says what a step does to this string and to the tokens still to be read: a token
is moved behind the string, or a body at its end is replaced. So the string derives the tokens
read so far, by the productions reduced by, the last one first (`Spelling.run`). A parser accepts
only on a stack that spells the start symbol and with no token left (`Spelling.accept`). None of
this asks which action wins in a cell, so it holds of tables with conflicts too.
-/

namespace Frontend

/-! ## What a stack spells -/

/-- The collection passes through the states of the stack, from the bottom up, on the string
of symbols. -/
inductive Grammar.Spells (g : Grammar) : List Nat → List String → Prop
  | bottom : Spells g [0] []
  | push {q r : Nat} {below : List Nat} {spelt : List String} {x : String}
    (h : Spells g (q :: below) spelt) (hgoes : g.Goes q x r) :
    Spells g (r :: q :: below) (spelt ++ [x])

namespace Grammar.Spells

variable {g : Grammar} {q n d : Nat} {below : List Nat} {spelt : List String} {p : Production}

theorem exists_top {stack : List Nat} (h : g.Spells stack spelt) :
    ∃ q below, stack = q :: below := by
  cases h with
  | bottom => exact ⟨_, _, rfl⟩
  | push => exact ⟨_, _, rfl⟩

/-- What a state has recognised of a production is on the stack: below as many states as
there are symbols before the dot lies the state in which the production was opened. -/
theorem pop (h : g.Spells (q :: below) spelt) (hi : g.HasItem q ⟨n, d⟩)
    (hp : g.augmentedProductions[n]? = some p) :
    ∃ r rest opened, (q :: below).drop d = r :: rest ∧ g.Spells (r :: rest) opened ∧
      g.HasItem r ⟨n, 0⟩ ∧ spelt = opened ++ p.body.take d := by
  induction d generalizing q below spelt with
  | zero => exact ⟨q, below, spelt, rfl, h, hi, by simp⟩
  | succ d ih =>
    cases h with
    | bottom =>
      have hdot : d + 1 = 0 := dot_eq_zero_of_hasItem_zero hi
      omega
    | @push q' _ below spelt x h hgoes =>
      obtain ⟨hi', hnext⟩ := hgoes.hasItem_of_advance (i := ⟨n, d⟩) hi
      obtain ⟨p', hp', hx⟩ := Item.next?_eq_some_iff.1 hnext
      obtain rfl := Option.some.inj (hp.symm.trans hp')
      obtain ⟨r, rest, opened, hdrop, hspells, hopen, rfl⟩ := ih h hi'
      refine ⟨r, rest, opened, hdrop, hspells, hopen, ?_⟩
      rw [List.take_add_one, hx, Option.toList_some, List.append_assoc]

/-- No state leads back to the first one, so it stands at the bottom only. -/
theorem eq_nil_of_zero (hg : g.Proper) (h : g.Spells (0 :: below) spelt) : spelt = [] := by
  cases h with
  | bottom => rfl
  | push _ hgoes => exact absurd rfl (hg.ne_zero_of_goes hgoes)

end Grammar.Spells

/-- The stack spells a string from which the tokens read so far are derived, by the
productions reduced by, the last one first. -/
def Reduced (g : Grammar) (tokens : List String) (done : List ParseMove) (c : Configuration) :
    Prop :=
  ∃ spelt consumed rest, g.Spells c.stack spelt ∧ tokens = consumed ++ rest ∧
    c.input = rest ++ [endMarker] ∧ g.NoNonterminals consumed ∧
      g.Rightmost (reductionsOf done).reverse spelt consumed

/-! ## What a step does -/

namespace ParseTable

/-- The stack spells a string, and the rest of the tokens is still to be read. -/
structure Spelling (g : Grammar) (c : Configuration) (spelt rest : List String) : Prop where
  stack : g.Spells c.stack spelt
  input : c.input = rest ++ [endMarker]

variable {g : Grammar} {tokens : List String} {done ms : List ParseMove} {c d : Configuration}
  {m : ParseMove} {spelt rest : List String}

theorem spelling_initial : Spelling g (.initial tokens) [] tokens := ⟨.bottom, rfl⟩

/-- A shift moves one token behind the string. -/
theorem Spelling.shift {r : Nat} (hg : g.Proper) (h : Spelling g c spelt rest)
    (ha : (ofGrammar g).actionAt? c = some (.shift r)) :
    ∃ x more, rest = x :: more ∧ g.isNonterminal x = false ∧
      Spelling g ⟨r :: c.stack, c.input.tail⟩ (spelt ++ [x]) more := by
  obtain ⟨hspells, hinput⟩ := h
  obtain ⟨x, hx, ha⟩ := Option.bind_eq_some_iff.1 ha
  obtain ⟨i, -, hnext, hgoes, hterminal⟩ := asks_of_action? ha
  rw [hinput] at hx
  -- The end marker is no symbol of the grammar, so it cannot be shifted.
  obtain ⟨more, rfl⟩ : ∃ more, rest = x :: more := by
    cases rest with
    | nil => exact absurd (Option.some.inj hx).symm (hg.ne_endMarker_of_next? hnext)
    | cons y more => exact ⟨more, by rw [Option.some.inj hx]⟩
  refine ⟨x, more, rfl, hterminal, ?_, by rw [hinput]; rfl⟩
  obtain ⟨stack, input⟩ := c
  obtain ⟨q, below, rfl⟩ := hspells.exists_top
  exact .push hspells hgoes

/-- A reduction replaces a body at the end of the string by its head. -/
theorem Spelling.reduce {n r : Nat} {p : Production} (h : Spelling g c spelt rest)
    (ha : (ofGrammar g).actionAt? c = some (.reduce n)) (hp : g.augmentedProductions[n]? = some p)
    (hgoto : (ofGrammar g).action? ((c.stack.drop p.body.length).headD 0) p.head =
      some (.goto r)) :
    ∃ opened, p ∈ g.productions ∧ spelt = opened ++ p.body ∧
      Spelling g ⟨r :: c.stack.drop p.body.length, c.input⟩ (opened ++ [p.head]) rest := by
  obtain ⟨hspells, hinput⟩ := h
  obtain ⟨x, hx, ha⟩ := Option.bind_eq_some_iff.1 ha
  obtain ⟨⟨n, dot⟩, hi, hnext, rfl, hn, -⟩ := asks_of_action? ha
  obtain ⟨stack, input⟩ := c
  obtain ⟨q, below, rfl⟩ := hspells.exists_top
  -- The item is complete, so the body lies on the stack as a whole.
  obtain ⟨p', hp', rfl⟩ := (Item.next?_eq_none_iff hi.fits).1 hnext
  obtain rfl := Option.some.inj (hp.symm.trans hp')
  obtain ⟨s, under, opened, hdrop, hunder, -, rfl⟩ := hspells.pop hi hp
  rw [hdrop] at hgoto ⊢
  obtain ⟨-, -, -, hgoes, -⟩ := asks_of_action? hgoto
  exact ⟨opened, Grammar.mem_productions_of_ne_zero hn hp, by rw [List.take_length],
    .push hunder hgoes, hinput⟩

/-- **What a step does**: it moves a token behind the string that the stack spells, or replaces a
body at the end of this string by its head. -/
theorem Spelling.step (hg : g.Proper) (h : Spelling g c spelt rest)
    (hstep : (ofGrammar g).step c = .proceed m d) :
    (∃ r x more, m = .shift r ∧ rest = x :: more ∧ g.isNonterminal x = false ∧
        Spelling g d (spelt ++ [x]) more) ∨
      ∃ n p opened, m = .reduce n p ∧ p ∈ g.productions ∧ spelt = opened ++ p.body ∧
        Spelling g d (opened ++ [p.head]) rest := by
  rcases step_eq_proceed_iff.1 hstep with
    ⟨r, ha, rfl, rfl⟩ | ⟨n, p, r, ha, hp, -, hgoto, rfl, rfl⟩
  · obtain ⟨x, more, hrest, hterminal, hd⟩ := h.shift hg ha
    exact .inl ⟨r, x, more, rfl, hrest, hterminal, hd⟩
  · obtain ⟨opened, hmem, hspelt, hd⟩ := h.reduce ha hp hgoto
    exact .inr ⟨n, p, opened, rfl, hmem, hspelt, hd⟩

/-! ## What a run does -/

/-- **A run undoes a derivation**: the string on the stack derives the string that was there
before, with the tokens that were read since. -/
theorem Spelling.run (hg : g.Proper) (h : Spelling g c spelt rest)
    (hruns : (ofGrammar g).Runs c ms d) :
    ∃ spelt' read rest', Spelling g d spelt' rest' ∧ rest = read ++ rest' ∧
      read.length = shiftsOf ms ∧ g.NoNonterminals read ∧
        g.Rightmost (reductionsOf ms).reverse spelt' (spelt ++ read) := by
  induction hruns generalizing spelt rest with
  | refl c =>
    refine ⟨spelt, [], rest, h, rfl, rfl, List.forall_mem_nil _, ?_⟩
    rw [List.append_nil]
    exact .refl spelt
  | step hstep _ ih =>
    rcases h.step hg hstep with
      ⟨r, x, more, rfl, rfl, hterminal, hd⟩ | ⟨n, p, opened, rfl, hp, rfl, hd⟩
    · obtain ⟨spelt', read, rest', he, rfl, hlength, hread, hderiv⟩ := ih hd
      refine ⟨spelt', x :: read, rest', he, rfl, ?_,
        Grammar.noNonterminals_cons.2 ⟨hterminal, hread⟩, ?_⟩
      · rw [List.length_cons, hlength, shiftsOf_shift]
      · simpa using hderiv
    · obtain ⟨spelt', read, rest', he, rfl, hlength, hread, hderiv⟩ := ih hd
      refine ⟨spelt', read, rest', he, rfl, hlength, hread, ?_⟩
      rw [List.append_assoc, List.singleton_append] at hderiv
      rw [reductionsOf_reduce, List.reverse_cons]
      exact hderiv.trans (.step hp hread (.refl _))

theorem reduced_run (hg : g.Proper) (hruns : (ofGrammar g).Runs (.initial tokens) ms d) :
    Reduced g tokens ms d := by
  obtain ⟨spelt, read, rest, ⟨hspells, hinput⟩, rfl, -, hread, hderiv⟩ :=
    spelling_initial.run hg hruns
  exact ⟨spelt, read, rest, hspells, rfl, hinput, hread, hderiv⟩

/-! ## Acceptance -/

/-- Where a parser accepts, the stack spells the start symbol and all tokens are read. -/
theorem Spelling.accept (hg : g.Proper) (hend : endMarker ∉ rest) (h : Spelling g c spelt rest)
    (hstep : (ofGrammar g).step c = .halt m true) :
    m = .accept ∧ spelt = [g.start] ∧ rest = [] := by
  obtain ⟨hspells, hinput⟩ := h
  rcases step_eq_halt_iff.1 hstep with ⟨ha, rfl, -⟩ | ⟨-, -, hno⟩
  · obtain ⟨x, hx, ha⟩ := Option.bind_eq_some_iff.1 ha
    obtain ⟨⟨n, dot⟩, hi, hnext, hn, rfl⟩ := asks_of_action? ha
    obtain rfl : n = 0 := hn
    obtain ⟨p, hp, rfl⟩ := (Item.next?_eq_none_iff hi.fits).1 hnext
    obtain rfl := Option.some.inj hp
    obtain ⟨stack, input⟩ := c
    obtain ⟨q, below, rfl⟩ := hspells.exists_top
    -- Below the completed start item lies the bottom of the stack, so nothing else is open.
    obtain ⟨r, under, opened, -, hspells, hopen, rfl⟩ := hspells.pop hi rfl
    obtain rfl := hg.eq_zero_of_hasItem_openingItem hopen
    refine ⟨rfl, by rw [hspells.eq_nil_of_zero hg]; rfl, ?_⟩
    rw [hinput] at hx
    cases rest with
    | nil => rfl
    | cons y more =>
      rw [List.cons_append, List.head?_cons, Option.some.injEq] at hx
      exact absurd (by simp [hx]) hend
  · cases hno

theorem rightmost_of_accept (hg : g.Proper) (hend : endMarker ∉ tokens)
    (hc : Reduced g tokens done c) (hstep : (ofGrammar g).step c = .halt m true) :
    m = .accept ∧ g.NoNonterminals tokens ∧
      g.Rightmost (reductionsOf done).reverse [g.start] tokens := by
  obtain ⟨spelt, consumed, rest, hspells, rfl, hinput, hconsumed, hderiv⟩ := hc
  rw [List.mem_append, not_or] at hend
  obtain ⟨rfl, rfl, rfl⟩ := Spelling.accept hg hend.2 ⟨hspells, hinput⟩ hstep
  rw [List.append_nil]
  exact ⟨rfl, hconsumed, hderiv⟩

/-- **What a parser accepts is a sentence**, and the productions it reduced by, read from the
last to the first, are a rightmost derivation of it. -/
theorem accepted_is_sentence {text : String} {limit : Nat} {o : ParseOutcome}
    (hread : Grammar.read text = .ok g) (hend : endMarker ∉ tokens)
    (hparse : (ofGrammar g).parseWithin? limit tokens = some (.ok o))
    (haccepted : o.accepted = true) :
    g.Rightmost o.reducedBy.reverse [g.start] tokens ∧ g.IsSentence tokens := by
  have hg := Grammar.proper_of_read hread
  obtain ⟨ms, d, m, hruns, hhalt, hmoves⟩ := runFrom_ok hparse
  rw [haccepted] at hhalt
  obtain ⟨rfl, hterminals, hderiv⟩ := rightmost_of_accept hg hend (reduced_run hg hruns) hhalt
  have hby : o.reducedBy = reductionsOf ms := by
    have htrace : (Progress.initial tokens).trace = [] := rfl
    rw [ParseOutcome.reducedBy, hmoves, htrace, reductionsOf_append, reductionsOf_append]
    simp [reductionsOf, ParseMove.production?]
  rw [hby]
  refine ⟨hderiv, fun s hs => ?_, hderiv.derives⟩
  refine hderiv.derives.isTerminal (fun s hs hn => ?_) s hs (hterminals s hs)
  rw [List.mem_singleton.1 hs, hg.start_isNonterminal] at hn
  cases hn

/-- Sums of names, which can be grouped in more than one way. -/
def sums : Grammar := ⟨"E", ⟨[("E", [["E", "+", "E"], ["n"]])], by decide⟩⟩

/-- The table of an ambiguous grammar has a conflict, and still what it accepts is derived. -/
theorem accepted_is_sentence_sum :
    Grammar.read "E ::= E + E | n" = .ok sums ∧ endMarker ∉ ["n", "+", "n", "+", "n"] ∧
      (ofGrammar sums).conflicts ≠ [] ∧
        ∃ o, (ofGrammar sums).parseWithin? 20 ["n", "+", "n", "+", "n"] = some (.ok o) ∧
          o.accepted = true ∧
            sums.Rightmost o.reducedBy.reverse [sums.start] ["n", "+", "n", "+", "n"] ∧
              sums.IsSentence ["n", "+", "n", "+", "n"] := by
  have hread : Grammar.read "E ::= E + E | n" = .ok sums := by decide +kernel
  have hend : endMarker ∉ ["n", "+", "n", "+", "n"] := by decide
  obtain ⟨o, hparse, haccepted⟩ : ∃ o,
      (ofGrammar sums).parseWithin? 20 ["n", "+", "n", "+", "n"] = some (.ok o) ∧
        o.accepted = true := ⟨_, rfl, rfl⟩
  exact ⟨hread, hend, by decide +kernel, o, hparse, haccepted,
    accepted_is_sentence hread hend hparse haccepted⟩

end ParseTable

end Frontend
