import Frontend.Proofs.LR.Preference
import Frontend.Proofs.LR.Safety

/-!
# What a table makes of its candidates

In the column of a terminal or of the end marker a state has its candidates (`Candidate`): a
shift where the collection goes, acceptance, and the reductions of complete productions on what
can follow their heads. They are what the items of the state ask for (`candidate_iff`), and items
come in such an order that whatever they ask for one cell comes in turn (`pairwise_asked`). So the
cell of a table is settled (`settled_cell`), whatever else is written into its row meanwhile.

`ofGrammar_spec` says what a table contains: each cell the candidate that is preferred, the log of
conflicts each other one once, the columns of the nonterminals where the collection goes, and
nothing else. `kept_unless_displaced` says what a conflict tells about the table that it is
recorded for: its dropped action is gone, and its kept action is there, if that was not a reduction
in a cell which a shift has taken afterwards.
-/

namespace Frontend

namespace Row

variable {q : Nat} {s : Row × List Conflict}

/-- The conflicts that are recorded in a row have its number. -/
theorem state_of_mem_write {e : String × Action} {c : Conflict} (hc : c ∈ (write q s e).2) :
    c ∈ s.2 ∨ c.state = q := by
  obtain ⟨x, a⟩ := e
  cases a <;> grind [write, set, setIfVacant]

theorem state_of_mem_foldl_write {l : List (String × Action)} {c : Conflict}
    (hc : c ∈ (l.foldl (write q) s).2) : c ∈ s.2 ∨ c.state = q := by
  induction l generalizing s with
  | nil => exact .inl hc
  | cons e l ih => exact (ih hc).elim state_of_mem_write .inr

end Row

namespace ParseTable

variable {g : Grammar} {q : Nat} {x : String} {a b : Action} {i j : Item} {items : ItemSet}

/-! ## Candidates -/

/-- The actions that compete for the cell of a state in the column of a terminal or of the end
marker. -/
def Candidate (g : Grammar) (q : Nat) (x : String) : Action → Prop
  | .shift r => g.Goes q x r
  | .accept => x = endMarker ∧ g.HasItem q Collection.completedItem
  | .reduce n => n ≠ 0 ∧ ∃ p, g.augmentedProductions[n]? = some p ∧
      g.HasItem q ⟨n, p.body.length⟩ ∧ x ∈ g.followSets.getD p.head ∅
  | .goto _ => False

/-- The candidates of a cell are what the items of its state ask for. -/
theorem candidate_iff (hx : g.isNonterminal x = false) :
    Candidate g q x a ↔ ∃ i, g.HasItem q i ∧ Asks g q i x a := by
  cases a with
  | shift r =>
    constructor
    · intro h
      obtain ⟨items, hq, ⟨i, hi, hnext⟩, -⟩ := h.items
      exact ⟨i, ⟨items, hq, hi⟩, hnext, h, hx⟩
    · intro h
      obtain ⟨i, -, -, hgoes, -⟩ := h
      exact hgoes
  | goto r =>
    refine ⟨False.elim, fun h => ?_⟩
    obtain ⟨i, -, -, -, hx'⟩ := h
    cases hx.symm.trans hx'
  | accept =>
    constructor
    · intro h
      obtain ⟨rfl, hi⟩ := h
      exact ⟨Collection.completedItem, hi, rfl, rfl, rfl⟩
    · intro h
      obtain ⟨⟨n, dot⟩, hi, hnext, rfl, rfl⟩ := h
      obtain ⟨p, hp, rfl⟩ := (Item.next?_eq_none_iff hi.fits).1 hnext
      obtain rfl := Option.some.inj hp
      exact ⟨rfl, hi⟩
  | reduce n =>
    constructor
    · intro h
      obtain ⟨hn, p, hp, hi, hx⟩ := h
      refine ⟨_, hi, (Item.next?_eq_none_iff hi.fits).2 ⟨p, hp, rfl⟩, rfl, hn, ?_⟩
      rwa [headOf, hp]
    · intro h
      obtain ⟨⟨n, dot⟩, hi, hnext, rfl, hn, hx⟩ := h
      obtain ⟨p, hp, rfl⟩ := (Item.next?_eq_none_iff hi.fits).1 hnext
      rw [headOf, hp] at hx
      exact ⟨hn, p, hp, hi, hx⟩

/-! ## The order of what is asked -/

/-- What an item asks for in a column is determined. -/
theorem Asks.unique (ha : Asks g q i x a) (hb : Asks g q i x b) : a = b := by
  cases hnext : i.next? g.augmentedProductions with
  | some y =>
    obtain ⟨-, r, hgoes, rfl⟩ := (asks_of_some hnext).1 ha
    obtain ⟨-, r', hgoes', rfl⟩ := (asks_of_some hnext).1 hb
    obtain rfl := hgoes.unique hgoes'
    rfl
  | none =>
    rcases (asks_of_none hnext).1 ha with ⟨h, -, rfl⟩ | ⟨h, -, rfl⟩
    · rcases (asks_of_none hnext).1 hb with ⟨-, -, rfl⟩ | ⟨h', -⟩
      · rfl
      · exact absurd h h'
    · rcases (asks_of_none hnext).1 hb with ⟨h', -⟩ | ⟨-, -, rfl⟩
      · exact absurd h' h
      · rfl

/-- What an item asks for comes in turn after what an item before it asks for. -/
theorem Asks.inTurn (hg : g.Proper) (hi : g.HasItem q i) (hj : g.HasItem q j) (hij : i < j)
    (ha : Asks g q i x a) (hb : Asks g q j x b) : a.InTurn b := by
  cases b with
  | shift r =>
    obtain ⟨hnext, hgoes, hx⟩ := hb
    cases a with
    | shift r' =>
      obtain rfl := hgoes.unique ha.2.1
      exact .again (Nat.zero_le _)
    | goto r' => cases hx.symm.trans ha.2.2
    | accept => exact absurd ha.2.2 (hg.ne_endMarker_of_next? hnext)
    | reduce n => exact .displaces n r
  | goto r =>
    obtain ⟨-, hgoes, hx⟩ := hb
    obtain ⟨r', rfl⟩ := ha.eq_goto hg hx hi
    obtain rfl := hgoes.unique ha.2.1
    exact .again (Nat.zero_le _)
  | accept =>
    obtain ⟨-, hstart, rfl⟩ := hb
    cases a with
    | shift r => exact absurd rfl (hg.ne_endMarker_of_next? ha.1)
    | goto r => exact absurd rfl (hg.ne_endMarker_of_next? ha.1)
    | accept => exact .again le_rfl
    | reduce n =>
      obtain ⟨-, rfl, hn, -⟩ := ha
      rcases hij with hlt | ⟨heq, -⟩
      · exact absurd hlt (by rw [hstart]; exact Nat.not_lt_zero _)
      · exact absurd (heq.trans hstart) hn
  | reduce n =>
    refine .refused ?_
    cases a with
    | shift r => exact Nat.succ_pos _
    | goto r => exact Nat.succ_pos _
    | accept => exact Nat.succ_lt_succ (Nat.succ_pos _)
    | reduce m =>
      obtain ⟨hnext, rfl, -⟩ := ha
      obtain ⟨hnext', rfl, -⟩ := hb
      refine Nat.add_lt_add_right (hij.resolve_right fun h => ?_) 2
      have hdot := Item.dot_eq_of_next?_eq_none hi.fits hj.fits hnext hnext' h.1
      exact Nat.ne_of_lt h.2 hdot

/-- What the items of a state ask for in a column, in the order in which it is written. -/
def asked (g : Grammar) (q : Nat) (x : String) (items : ItemSet) : List Action :=
  ((items.toList.flatMap (offers g q)).filter fun e => e.1 = x).map Prod.snd

theorem mem_asked : a ∈ asked g q x items ↔ ∃ i ∈ items, Asks g q i x a := by
  simp [asked, mem_offers, OrdSet.mem_def]

theorem nodup_offers : (offers g q i).Nodup := by
  unfold offers
  split
  · split
    · exact List.nodup_singleton _
    · exact List.nodup_nil
  · split
    · exact List.nodup_singleton _
    · exact (OrdSet.nodup _).map fun x y h => congrArg Prod.fst h

/-- **What the items of a state ask for comes in turn.** -/
theorem pairwise_asked (hg : g.Proper)
    (hq : (Collection.itemSets g.augmentedProductions)[q]? = some items) :
    (asked g q x items).Pairwise Action.InTurn := by
  have hask : ∀ {i e}, e ∈ offers g q i → decide (e.1 = x) = true → Asks g q i x e.2 := by
    intro i e he hx
    rw [← of_decide_eq_true hx]
    exact mem_offers.1 he
  have hitem : ∀ i ∈ items.toList, g.HasItem q i := fun i hi => ⟨items, hq, hi⟩
  rw [asked, List.pairwise_map, List.pairwise_filter, List.pairwise_flatMap]
  constructor
  · intro i _
    -- An item offers nothing twice, so it offers a column at most once.
    refine nodup_offers.imp_of_mem fun {e e'} he he' hne hx hx' => ?_
    have hfst : e.1 = e'.1 := (of_decide_eq_true hx).trans (of_decide_eq_true hx').symm
    exact absurd (Prod.ext hfst ((hask he hx).unique (hask he' hx'))) hne
  · refine items.sorted.imp_of_mem fun {i j} hi hj hij e he e' he' hx hx' => ?_
    exact (hask he hx).inTurn hg (hitem i hi) (hitem j hj) hij (hask he' hx')

/-! ## The cells of a table -/

/-- A cell of a table, with the conflicts that are recorded for it. -/
def cell (t : ParseTable) (q : Nat) (x : String) : Row.Cell :=
  ⟨t.action? q x, t.conflicts.filter fun c => c.state = q ∧ c.symbol = x⟩

/-- The conflicts of a state are those that filling its row records. -/
theorem filter_conflicts_ofGrammar :
    (ofGrammar g).conflicts.filter (fun c => c.state = q) =
      ((Collection.itemSets g.augmentedProductions)[q]?.map fun items => (filled g q items).2).getD
        [] := by
  have hconflicts : (ofGrammar g).conflicts =
      (Text.numberFrom 0 (Collection.ofGrammar g).states).flatMap
        fun e => (filled g e.1 e.2.items).2 := List.flatMap_map ..
  rw [hconflicts, Text.filter_flatMap_numberFrom, if_pos (Nat.zero_le q), Collection.ofGrammar,
    List.getElem?_map, Option.map_map]
  · rfl
  · intro e c hc
    rw [filled, fillRow_eq] at hc
    exact (Row.state_of_mem_foldl_write hc).resolve_left List.not_mem_nil

theorem cell_ofGrammar
    (hq : (Collection.itemSets g.augmentedProductions)[q]? = some items) :
    (ofGrammar g).cell q x = Row.cellOf x (filled g q items) := by
  have hlog : (ofGrammar g).conflicts.filter (fun c => c.state = q ∧ c.symbol = x) =
      ((ofGrammar g).conflicts.filter fun c => c.state = q).filter fun c => c.symbol = x := by
    rw [List.filter_filter]
    exact List.filter_congr fun c _ => by simp [Bool.and_comm]
  rw [cell, hlog, filter_conflicts_ofGrammar, action?_ofGrammar, hq]
  rfl

/-- **The cells of a table are settled**, whatever else was written meanwhile. -/
theorem settled_cell (hg : g.Proper)
    (hq : (Collection.itemSets g.augmentedProductions)[q]? = some items) :
    Row.Cell.Settled q x (asked g q x items) ((ofGrammar g).cell q x) := by
  rw [cell_ofGrammar hq, filled, fillRow_eq, Row.cellOf_foldl_write]
  exact Row.Cell.settled_foldl (pairwise_asked hg hq)

/-- A cell of a table holds the action that is preferred among those with a property, and each
other one of them was dropped in one conflict. -/
structure Resolves (t : ParseTable) (q : Nat) (x : String) (p : Action → Prop) : Prop where
  action?_iff : ∀ a, t.action? q x = some a ↔ a.Preferred p
  eq_none_iff : t.action? q x = none ↔ ∀ a, ¬ p a
  dropped_once : ∀ a, p a → t.action? q x ≠ some a →
    t.conflicts.countP (fun c => c.state = q ∧ c.symbol = x ∧ c.dropped = a) = 1

theorem resolves_of_settled {t : ParseTable} {p : Action → Prop} {as : List Action}
    (hp : ∀ a, p a ↔ a ∈ as) (h : Row.Cell.Settled q x as (t.cell q x)) : t.Resolves q x p where
  action?_iff a := (h.action?_iff a).trans (by simp only [Action.Preferred, hp])
  eq_none_iff := by
    simp only [hp]
    constructor
    · intro hnone a ha
      rw [h.eq_nil hnone] at ha
      cases ha
    · intro hno
      rw [Option.eq_none_iff_forall_ne_some]
      exact fun a ha => hno a ((h.action?_iff a).1 ha).1
  dropped_once := by
    intro a ha hne
    rw [hp] at ha
    have hcount := List.count_eq_one_of_mem h.nodup ((h.dropped_iff a).2 ⟨ha, hne⟩)
    rw [List.count_eq_countP, List.countP_map, cell, List.countP_filter] at hcount
    rw [← hcount]
    refine List.countP_congr fun c _ => ?_
    simp [and_comm, and_assoc]

theorem mem_terminals_ofGrammar :
    x ∈ (ofGrammar g).terminals ↔ g.isTerminal x = true ∨ x = endMarker := by
  rw [← Grammar.mem_terminals_iff, OrdSet.mem_def, ← List.mem_singleton, ← List.mem_append]
  rfl

theorem isNonterminal_of_mem_terminals (hg : g.Proper) (hx : x ∈ (ofGrammar g).terminals) :
    g.isNonterminal x = false := by
  rcases mem_terminals_ofGrammar.1 hx with hx | rfl
  · exact Grammar.isNonterminal_of_isTerminal hx
  · exact hg.endMarker_not_head

/-- Items ask for actions in the columns of the table only. -/
theorem Asks.mem_columns (hg : g.Proper) (hi : g.HasItem q i) (h : Asks g q i x a) :
    x ∈ (ofGrammar g).terminals ∨ x ∈ (ofGrammar g).nonterminals := by
  have hmoved : i.next? g.augmentedProductions = some x →
      x ∈ (ofGrammar g).terminals ∨ x ∈ (ofGrammar g).nonterminals := by
    intro hnext
    rcases hg.symbol_of_next? hnext with hx | hx
    · exact .inr (Grammar.isNonterminal_iff.1 hx)
    · exact .inl (mem_terminals_ofGrammar.2 (.inl hx))
  cases a with
  | shift r => exact hmoved h.1
  | goto r => exact hmoved h.1
  | accept => exact .inl (mem_terminals_ofGrammar.2 (.inr h.2.2))
  | reduce n => exact .inl (mem_terminals_ofGrammar.2 (h.reduce_column hi))

/-- In the columns of the nonterminals a table goes where the collection does. -/
theorem action?_eq_goto_iff (hg : g.Proper) (hx : g.isNonterminal x = true) :
    (ofGrammar g).action? q x = some a ↔ ∃ r, g.Goes q x r ∧ a = .goto r := by
  constructor
  · intro h
    obtain ⟨r, rfl⟩ := eq_goto_of_action? hg hx h
    obtain ⟨i, -, -, hgoes, -⟩ := asks_of_action? h
    exact ⟨r, hgoes, rfl⟩
  · intro h
    obtain ⟨r, hgoes, rfl⟩ := h
    obtain ⟨items, hq, ⟨i, hi, hnext⟩, -⟩ := hgoes.items
    obtain ⟨r', h⟩ := exists_goto hg ⟨items, hq, hi⟩ hnext hx
    obtain ⟨j, -, -, hgoes', -⟩ := asks_of_action? h
    obtain rfl := hgoes.unique hgoes'
    exact h

theorem Candidate.iff_mem_asked (hx : g.isNonterminal x = false)
    (hq : (Collection.itemSets g.augmentedProductions)[q]? = some items) :
    Candidate g q x a ↔ a ∈ asked g q x items := by
  rw [candidate_iff hx, mem_asked]
  refine exists_congr fun i => and_congr_left fun _ => ⟨fun hi => ?_, fun hi => ⟨items, hq, hi⟩⟩
  obtain ⟨items', hq', hi⟩ := hi
  obtain rfl := Option.some.inj (hq.symm.trans hq')
  exact hi

/-- **The cells in the columns of terminals are resolved** among their candidates. -/
theorem resolves_ofGrammar (hg : g.Proper)
    (hq : (Collection.itemSets g.augmentedProductions)[q]? = some items)
    (hx : x ∈ (ofGrammar g).terminals) : (ofGrammar g).Resolves q x (Candidate g q x) := by
  have hx := isNonterminal_of_mem_terminals hg hx
  exact resolves_of_settled (fun a => Candidate.iff_mem_asked hx hq) (settled_cell hg hq)

/-! ## The conflicts of a table -/

/-- A conflict is recorded for a state of the collection and shows in the cell that it names. -/
theorem exists_of_mem_conflicts {c : Conflict} (hc : c ∈ (ofGrammar g).conflicts) :
    ∃ items, (Collection.itemSets g.augmentedProductions)[c.state]? = some items ∧
      c ∈ ((ofGrammar g).cell c.state c.symbol).log := by
  have hmem : c ∈ (ofGrammar g).conflicts.filter (fun e => e.state = c.state) :=
    List.mem_filter.2 ⟨hc, decide_eq_true rfl⟩
  rw [filter_conflicts_ofGrammar] at hmem
  cases hq : (Collection.itemSets g.augmentedProductions)[c.state]? with
  | none =>
    rw [hq] at hmem
    cases hmem
  | some items => exact ⟨items, rfl, List.mem_filter.2 ⟨hc, by simp⟩⟩

/-- What a conflict calls dropped is a candidate of a cell that holds another one. -/
theorem dropped_of_mem_conflicts {c : Conflict} (hg : g.Proper)
    (hc : c ∈ (ofGrammar g).conflicts) :
    c.symbol ∈ (ofGrammar g).terminals ∧ Candidate g c.state c.symbol c.dropped ∧
      (ofGrammar g).action? c.state c.symbol ≠ some c.dropped := by
  obtain ⟨items, hq, hmem⟩ := exists_of_mem_conflicts hc
  have hsettled := settled_cell (x := c.symbol) hg hq
  obtain ⟨hasked, hne⟩ := (hsettled.dropped_iff _).1 (List.mem_map_of_mem hmem)
  obtain ⟨i, hi, hasks⟩ := mem_asked.1 hasked
  have hi : g.HasItem c.state i := ⟨items, hq, hi⟩
  have hx : c.symbol ∈ (ofGrammar g).terminals := by
    -- All that is asked for in the column of a nonterminal is one action.
    refine (hasks.mem_columns hg hi).resolve_right fun hx => hne ?_
    have hx := Grammar.isNonterminal_iff.2 hx
    obtain ⟨r, hr⟩ := hasks.eq_goto hg hx hi
    rw [hr] at hasks ⊢
    exact (action?_eq_goto_iff hg hx).2 ⟨r, hasks.2.1, rfl⟩
  exact ⟨hx, (candidate_iff (isNonterminal_of_mem_terminals hg hx)).2 ⟨i, hi, hasks⟩, hne⟩

/-- **What a table contains**: in the columns of the terminals and of the end marker the candidate
that is preferred, where each other one has been dropped in one conflict; in the columns of the
nonterminals where to go; and there is no other action and no other conflict. -/
theorem ofGrammar_spec {text : String} (hread : Grammar.read text = .ok g) :
    (∀ q < (Collection.ofGrammar g).states.length, ∀ x ∈ (ofGrammar g).terminals,
      (ofGrammar g).Resolves q x (Candidate g q x)) ∧
    (∀ q, ∀ x ∈ (ofGrammar g).nonterminals, ∀ a,
      (ofGrammar g).action? q x = some a ↔ ∃ r, g.Goes q x r ∧ a = .goto r) ∧
    (∀ q x a, (ofGrammar g).action? q x = some a →
      q < (Collection.ofGrammar g).states.length ∧
        (x ∈ (ofGrammar g).terminals ∨ x ∈ (ofGrammar g).nonterminals)) ∧
    ∀ c ∈ (ofGrammar g).conflicts,
      c.state < (Collection.ofGrammar g).states.length ∧ c.symbol ∈ (ofGrammar g).terminals ∧
        Candidate g c.state c.symbol c.dropped ∧
        (ofGrammar g).action? c.state c.symbol ≠ some c.dropped := by
  have hg := Grammar.proper_of_read hread
  rw [Collection.length_states_ofGrammar]
  refine ⟨fun q hq x hx => ?_, fun q x hx a => ?_, fun q x a h => ?_, fun c hc => ?_⟩
  · exact resolves_ofGrammar hg (List.getElem?_eq_getElem hq) hx
  · exact action?_eq_goto_iff hg (Grammar.isNonterminal_iff.2 hx)
  · obtain ⟨i, hi, hasks⟩ := asks_of_action? h
    obtain ⟨items, hq, -⟩ := id hi
    exact ⟨(List.getElem?_eq_some_iff.1 hq).1, hasks.mem_columns hg hi⟩
  · obtain ⟨items, hq, -⟩ := exists_of_mem_conflicts hc
    exact ⟨(List.getElem?_eq_some_iff.1 hq).1, dropped_of_mem_conflicts hg hc⟩

/-- Three productions that are complete, or not, where the same symbol has been read. -/
def contested : Grammar :=
  ⟨"S", ⟨[("S", [["A", "x"], ["B", "x"], ["C"]]), ("A", [["a"]]), ("B", [["a"]]),
    ("C", [["a", "x"]])], by decide⟩⟩

/-- The cell of the state after the symbol has three candidates: the shift wins it, and each of the
two reductions is dropped once. -/
theorem ofGrammar_spec_contested :
    Grammar.read "S ::= A x | B x | C\nA ::= a\nB ::= a\nC ::= a x" = .ok contested ∧
      Candidate contested 5 "x" (.shift 8) ∧
      (∀ n ∈ [4, 5], Candidate contested 5 "x" (.reduce n)) ∧
      (ofGrammar contested).action? 5 "x" = some (.shift 8) ∧
      ∀ n ∈ [4, 5], (ofGrammar contested).conflicts.countP
        (fun c => c.state = 5 ∧ c.symbol = "x" ∧ c.dropped = .reduce n) = 1 := by
  have hread : Grammar.read "S ::= A x | B x | C\nA ::= a\nB ::= a\nC ::= a x" =
    .ok contested := by decide +kernel
  obtain ⟨hcells, -⟩ := ofGrammar_spec hread
  have hcell := hcells 5 (by decide +kernel) "x" (by decide +kernel)
  have hshift : Candidate contested 5 "x" (.shift 8) := by
    show (Collection.ofGrammar contested).transition? 5 "x" = some (.state 8)
    decide +kernel
  have hreduce : ∀ n ∈ [4, 5], Candidate contested 5 "x" (.reduce n) := by
    intro n hn
    simp only [List.mem_cons, List.not_mem_nil, or_false] at hn
    rcases hn with rfl | rfl
    · exact ⟨by decide, _, rfl, ⟨_, rfl, by decide +kernel⟩, by decide +kernel⟩
    · exact ⟨by decide, _, rfl, ⟨_, rfl, by decide +kernel⟩, by decide +kernel⟩
  have haction : (ofGrammar contested).action? 5 "x" = some (.shift 8) :=
    (hcell.action?_iff _).2 ⟨hshift, fun _ _ => Nat.zero_le _⟩
  refine ⟨hread, hshift, hreduce, haction, fun n hn => hcell.dropped_once _ (hreduce n hn) ?_⟩
  rw [haction]
  simp

/-- **A conflict tells what became of its cell**, apart from a reduction that it calls kept where
the collection moves on: the dropped action is not there, and the kept one is. A reduction that was
kept at first has given way to the shift, as another conflict says. -/
theorem kept_unless_displaced {text : String} (hread : Grammar.read text = .ok g) {c : Conflict}
    (hc : c ∈ (ofGrammar g).conflicts) :
    (ofGrammar g).action? c.state c.symbol ≠ some c.dropped ∧
      ((∀ n r, c.kept = .reduce n → ¬ g.Goes c.state c.symbol r) →
        (ofGrammar g).action? c.state c.symbol = some c.kept) ∧
      ∀ n r, c.kept = .reduce n → g.Goes c.state c.symbol r →
        (ofGrammar g).action? c.state c.symbol = some (.shift r) ∧
          ⟨c.state, c.symbol, .shift r, .reduce n⟩ ∈ (ofGrammar g).conflicts := by
  have hg := Grammar.proper_of_read hread
  obtain ⟨items, hq, hmem⟩ := exists_of_mem_conflicts hc
  obtain ⟨hx, -, hne⟩ := dropped_of_mem_conflicts hg hc
  have hresolves := resolves_ofGrammar hg hq hx
  have hkept := (settled_cell hg hq).kept c hmem
  refine ⟨hne, fun hno => hkept.resolve_right fun h => ?_, fun n r hreduce hgoes => ?_⟩
  · obtain ⟨n, r, hreduce, hr, -⟩ := h
    exact hno n r hreduce ((hresolves.action?_iff _).1 hr).1
  · rcases hkept with h | ⟨n', r', hreduce', hr, hmem'⟩
    · rw [hreduce] at h
      have hle := ((hresolves.action?_iff _).1 h).2 (.shift r) hgoes
      exact absurd hle (Nat.not_succ_le_zero _)
    · obtain rfl := Action.reduce.inj (hreduce.symm.trans hreduce')
      have hgoes' : g.Goes c.state c.symbol r' := ((hresolves.action?_iff _).1 hr).1
      obtain rfl := hgoes.unique hgoes'
      exact ⟨hr, (List.mem_filter.1 hmem').1⟩

/-- The first reduction is kept when the second comes, and the shift comes after both. -/
theorem kept_unless_displaced_contested :
    Grammar.read "S ::= A x | B x | C\nA ::= a\nB ::= a\nC ::= a x" = .ok contested ∧
      ⟨5, "x", .reduce 4, .reduce 5⟩ ∈ (ofGrammar contested).conflicts ∧
      (ofGrammar contested).action? 5 "x" = some (.shift 8) ∧
      ⟨5, "x", .shift 8, .reduce 4⟩ ∈ (ofGrammar contested).conflicts := by
  have hread : Grammar.read "S ::= A x | B x | C\nA ::= a\nB ::= a\nC ::= a x" =
    .ok contested := by decide +kernel
  have hmem : ⟨5, "x", .reduce 4, .reduce 5⟩ ∈ (ofGrammar contested).conflicts := by decide +kernel
  have hgoes : contested.Goes 5 "x" 8 := by
    show (Collection.ofGrammar contested).transition? 5 "x" = some (.state 8)
    decide +kernel
  obtain ⟨-, -, hdisplaced⟩ := kept_unless_displaced hread hmem
  exact ⟨hread, hmem, hdisplaced 4 8 rfl hgoes⟩

/-- So not every action that a conflict calls kept is in the table. -/
theorem not_forall_kept :
    Grammar.read "S ::= A x | B x | C\nA ::= a\nB ::= a\nC ::= a x" = .ok contested ∧
      ¬ ∀ c ∈ (ofGrammar contested).conflicts,
        (ofGrammar contested).action? c.state c.symbol = some c.kept := by
  refine ⟨by decide +kernel, fun h => ?_⟩
  have hkept := h ⟨5, "x", .reduce 4, .reduce 5⟩ (by decide +kernel)
  exact absurd hkept (by decide +kernel)

end ParseTable

end Frontend
