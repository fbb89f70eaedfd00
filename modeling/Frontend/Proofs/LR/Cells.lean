import Frontend.LR.Simple
import Frontend.Proofs.LR.States
import Frontend.Proofs.Text.Lines

/-!
# The cells of a table

To write an action is to write it into one cell of a row: the action that a row holds for another
symbol stays, and so do the conflicts recorded for it (`Row.cellOf_write`). What holds of a row
that is written is read off its cells.

An item of a state asks for an action in one or more columns: to move its dot over the symbol
of the column, to accept, or to reduce its production (`ParseTable.Asks`). `offers` lists
what an item asks for, and `fillRow_eq` says that a row is filled by writing all of that, one
after the other; a reduction only goes into a vacant cell.

So every action of a table was asked for by an item of its state (`asks_of_action?`), and a
cell for which an action was asked holds one (`exists_action?_of_asks`). Which of several
actions wins is decided on the way, but a clash is recorded: in a table without conflicts every
action that is asked for is there (`action?_of_asks`).
-/

namespace Frontend

/-! ## Writing a row -/

namespace Row

variable {row : Row} {q : Nat} {x : String} {a : Action}

/-- The second row has all actions of the first. -/
def Extends (row row' : Row) : Prop :=
  ∀ x a, row.get? x = some a → row'.get? x = some a

theorem Extends.refl (row : Row) : Extends row row := fun _ _ h => h

theorem Extends.trans {row row' row'' : Row} (h : Extends row row') (h' : Extends row' row'') :
    Extends row row'' :=
  fun x a hx => h' x a (h x a hx)

/-- Writes an action into its column as actions of its kind are written. -/
def write (q : Nat) (s : Row × List Conflict) (e : String × Action) : Row × List Conflict :=
  let (row, more) :=
    match e.2 with
    | .reduce _ => setIfVacant q s.1 e.1 e.2
    | _ => set q s.1 e.1 e.2
  (row, s.2 ++ more)

/-- What a row holds for a symbol, and the conflicts recorded for it. -/
structure Cell where
  action? : Option Action
  log : List Conflict

/-- The cell of a symbol. -/
def cellOf (x : String) (s : Row × List Conflict) : Cell :=
  ⟨s.1.get? x, s.2.filter fun c => c.symbol = x⟩

/-- Writes an action into the cell of the state `q` and the symbol `x` as actions of its kind are
written. -/
def Cell.write (q : Nat) (x : String) (c : Cell) (a : Action) : Cell :=
  match c.action? with
  | none => ⟨some a, c.log⟩
  | some b =>
    if b = a then c
    else
      match a with
      | .reduce _ => ⟨some b, c.log ++ [⟨q, x, b, a⟩]⟩
      | _ => ⟨some a, c.log ++ [⟨q, x, a, b⟩]⟩

variable {s : Row × List Conflict} {e : String × Action}

/-- **To write an action is to write it into its cell**, and all other cells stay as they are. -/
theorem cellOf_write :
    cellOf x (write q s e) = if e.1 = x then (cellOf x s).write q x e.2 else cellOf x s := by
  obtain ⟨row, log⟩ := s
  obtain ⟨y, a⟩ := e
  dsimp only
  by_cases hyx : y = x
  · subst hyx
    rw [if_pos rfl]
    cases hy : row.get? y with
    | none => cases a <;> simp [write, set, setIfVacant, cellOf, Cell.write, hy, OrdMap.get?_insert]
    | some b =>
      by_cases hba : b = a
      · subst hba
        cases b <;> simp [write, set, setIfVacant, cellOf, Cell.write, hy, OrdMap.get?_insert]
      · cases a <;> simp [write, set, setIfVacant, cellOf, Cell.write, hy, hba, OrdMap.get?_insert]
  · have hxy : x ≠ y := Ne.symm hyx
    rw [if_neg hyx]
    cases hy : row.get? y with
    | none => cases a <;> simp [write, set, setIfVacant, cellOf, hy, OrdMap.get?_insert, hxy]
    | some b =>
      by_cases hba : b = a
      · cases a <;> simp [write, set, setIfVacant, cellOf, hy, hba, OrdMap.get?_insert, hxy]
      · cases a <;> simp [write, set, setIfVacant, cellOf, hy, hba, OrdMap.get?_insert, hxy, hyx]

/-- A cell is written by what is written for its symbol, in that order. -/
theorem cellOf_foldl_write {l : List (String × Action)} :
    cellOf x (l.foldl (write q) s) =
      ((l.filter fun e => e.1 = x).map Prod.snd).foldl (Cell.write q x) (cellOf x s) := by
  induction l generalizing s with
  | nil => rfl
  | cons e l ih =>
    rw [List.foldl_cons, ih, cellOf_write, List.filter_cons]
    by_cases hx : e.1 = x
    · rw [if_pos hx, if_pos (decide_eq_true hx), List.map_cons, List.foldl_cons]
    · rw [if_neg hx, if_neg (by simpa using hx)]

/-- A cell that has been written holds the new action or the one before it. -/
theorem Cell.action?_write (c : Cell) :
    (c.write q x a).action? = some a ∨
      ∃ b, c.action? = some b ∧ (c.write q x a).action? = some b := by
  unfold Cell.write
  cases hc : c.action? with
  | none => exact .inl rfl
  | some b =>
    dsimp only
    split
    · exact .inr ⟨b, rfl, hc⟩
    · cases a with
      | reduce n => exact .inr ⟨b, rfl, rfl⟩
      | shift r => exact .inl rfl
      | goto r => exact .inl rfl
      | accept => exact .inl rfl

/-- A cell that was written without a conflict holds the action, and held no other. -/
theorem Cell.write_of_log_eq_nil {c : Cell} (h : (c.write q x a).log = []) :
    c.log = [] ∧ (c.write q x a).action? = some a ∧ ∀ b, c.action? = some b → b = a := by
  unfold Cell.write at h ⊢
  cases hc : c.action? with
  | none =>
    rw [hc] at h
    exact ⟨h, rfl, nofun⟩
  | some b =>
    rw [hc] at h
    dsimp only at h ⊢
    split at h
    · next hba =>
      rw [if_pos hba]
      exact ⟨h, hba ▸ hc, fun b' hb' => Option.some.inj hb' ▸ hba⟩
    · cases a <;> exact absurd (List.append_eq_nil_iff.1 h).2 (List.cons_ne_nil _ _)

/-! ## Rows, cell by cell -/

theorem get?_write_eq :
    (write q s e).1.get? x =
      if e.1 = x then ((cellOf x s).write q x e.2).action? else s.1.get? x := by
  have h := congrArg Cell.action? (cellOf_write (q := q) (s := s) (e := e) (x := x))
  rwa [apply_ite Cell.action?] at h

theorem get?_write (h : (write q s e).1.get? x = some a) : s.1.get? x = some a ∨ (x, a) = e := by
  rw [get?_write_eq] at h
  split at h
  · next hx =>
    rcases (cellOf x s).action?_write (q := q) (x := x) (a := e.2) with hw | ⟨b, hb, hw⟩
    · exact .inr (Prod.ext hx.symm (Option.some.inj (h.symm.trans hw)))
    · exact .inl (hb.trans (hw.symm.trans h))
  · exact .inl h

/-- A row that is written without a conflict keeps what it had and gains the action. -/
theorem extends_write (h : (write q s e).2 = []) :
    s.2 = [] ∧ Extends s.1 (write q s e).1 ∧ (write q s e).1.get? e.1 = some e.2 := by
  have hlog : ∀ x, (cellOf x (write q s e)).log = [] := fun x => by rw [cellOf, h, List.filter_nil]
  have hown := hlog e.1
  rw [cellOf_write, if_pos rfl] at hown
  obtain ⟨hnil, hget, heq⟩ := Cell.write_of_log_eq_nil hown
  refine ⟨List.eq_nil_iff_forall_not_mem.2 fun c hc => ?_, fun x a ha => ?_, ?_⟩
  · have hmem : c ∈ (cellOf c.symbol s).log := List.mem_filter.2 ⟨hc, decide_eq_true rfl⟩
    have hc := hlog c.symbol
    rw [cellOf_write] at hc
    split at hc
    · next hsymbol => exact List.not_mem_nil (hnil ▸ hsymbol ▸ hmem)
    · exact List.not_mem_nil (hc ▸ hmem)
  · rw [get?_write_eq]
    split
    · next hx =>
      subst hx
      rw [hget, heq a ha]
    · exact ha
  · rw [get?_write_eq, if_pos rfl, hget]

/-- What is written leaves no cell empty that was filled, and fills its own. -/
theorem isSome_get?_write (h : (s.1.get? x).isSome = true ∨ e.1 = x) :
    ((write q s e).1.get? x).isSome = true := by
  rw [get?_write_eq]
  split
  · rcases (cellOf x s).action?_write (q := q) (x := x) (a := e.2) with hw | ⟨b, -, hw⟩
    · exact hw ▸ rfl
    · exact hw ▸ rfl
  · next hx => exact h.resolve_right hx

theorem isSome_get?_foldl_write {l : List (String × Action)}
    (h : (s.1.get? x).isSome = true ∨ ∃ e ∈ l, e.1 = x) :
    ((l.foldl (write q) s).1.get? x).isSome = true := by
  induction l generalizing s with
  | nil => exact h.resolve_right (by simp)
  | cons e l ih =>
    refine ih ?_
    rw [List.exists_mem_cons_iff, ← or_assoc] at h
    exact h.imp_left isSome_get?_write

theorem get?_foldl_write {l : List (String × Action)}
    (h : (l.foldl (write q) s).1.get? x = some a) : s.1.get? x = some a ∨ (x, a) ∈ l := by
  induction l generalizing s with
  | nil => exact .inl h
  | cons e l ih =>
    rcases ih h with h | h
    · refine (get?_write h).imp_right ?_
      intro heq
      subst heq
      exact List.mem_cons_self
    · exact .inr (List.mem_cons_of_mem _ h)

/-- Without conflicts, all that was written is there in the end. -/
theorem extends_foldl_write {l : List (String × Action)} (h : (l.foldl (write q) s).2 = []) :
    s.2 = [] ∧ Extends s.1 (l.foldl (write q) s).1 ∧
      ∀ e ∈ l, (l.foldl (write q) s).1.get? e.1 = some e.2 := by
  induction l generalizing s with
  | nil =>
    refine ⟨h, .refl _, fun e he => ?_⟩
    cases he
  | cons e l ih =>
    obtain ⟨he, hext, hmem⟩ := ih h
    obtain ⟨hs, hext', hget⟩ := extends_write he
    refine ⟨hs, hext'.trans hext, fun e' he' => ?_⟩
    rcases List.mem_cons.1 he' with rfl | he'
    · exact hext _ _ hget
    · exact hmem e' he'

end Row

/-! ## What items ask for -/

namespace ParseTable

variable {g : Grammar} {q : Nat} {i : Item} {x : String} {a : Action}

/-- The head of the production of an item. -/
def headOf (g : Grammar) (i : Item) : String :=
  (g.augmentedProductions[i.production]?.map Production.head).getD ""

/-- An item of the state `q` asks for an action in the column `x`. -/
def Asks (g : Grammar) (q : Nat) (i : Item) (x : String) : Action → Prop
  | .shift r => i.next? g.augmentedProductions = some x ∧ g.Goes q x r ∧ g.isNonterminal x = false
  | .goto r => i.next? g.augmentedProductions = some x ∧ g.Goes q x r ∧ g.isNonterminal x = true
  | .accept => i.next? g.augmentedProductions = none ∧ i.production = 0 ∧ x = endMarker
  | .reduce n => i.next? g.augmentedProductions = none ∧ i.production = n ∧ n ≠ 0 ∧
      x ∈ g.followSets.getD (headOf g i) ∅

/-- All that an item of the state `q` asks for, by columns. -/
def offers (g : Grammar) (q : Nat) (i : Item) : List (String × Action) :=
  match i.next? g.augmentedProductions with
  | some x =>
    match (Collection.ofGrammar g).transition? q x with
    | some (.state r) => [(x, if g.isNonterminal x then .goto r else .shift r)]
    | _ => []
  | none =>
    if i.production = 0 then [(endMarker, .accept)]
    else (g.followSets.getD (headOf g i) ∅).toList.map fun x => (x, .reduce i.production)

/-- With the dot before a symbol, an item asks to go where the symbol leads. -/
theorem asks_of_some {y : String} (hnext : i.next? g.augmentedProductions = some y) :
    Asks g q i x a ↔
      x = y ∧ ∃ r, g.Goes q y r ∧ a = if g.isNonterminal y then .goto r else .shift r := by
  constructor
  · intro h
    cases a with
    | shift r =>
      obtain ⟨hnext', hgoes, hx⟩ := h
      obtain rfl := Option.some.inj (hnext.symm.trans hnext')
      exact ⟨rfl, r, hgoes, by rw [hx]; rfl⟩
    | goto r =>
      obtain ⟨hnext', hgoes, hx⟩ := h
      obtain rfl := Option.some.inj (hnext.symm.trans hnext')
      exact ⟨rfl, r, hgoes, by rw [hx]; rfl⟩
    | accept => cases hnext.symm.trans h.1
    | reduce n => cases hnext.symm.trans h.1
  · intro h
    obtain ⟨rfl, r, hgoes, rfl⟩ := h
    split
    · next hx => exact ⟨hnext, hgoes, hx⟩
    · next hx => exact ⟨hnext, hgoes, Bool.not_eq_true _ ▸ hx⟩

/-- A completed item asks to accept or to reduce. -/
theorem asks_of_none (hnext : i.next? g.augmentedProductions = none) :
    Asks g q i x a ↔
      i.production = 0 ∧ x = endMarker ∧ a = .accept ∨
        i.production ≠ 0 ∧ x ∈ g.followSets.getD (headOf g i) ∅ ∧ a = .reduce i.production := by
  constructor
  · intro h
    cases a with
    | shift r => cases hnext.symm.trans h.1
    | goto r => cases hnext.symm.trans h.1
    | accept => exact .inl ⟨h.2.1, h.2.2, rfl⟩
    | reduce n =>
      obtain ⟨-, rfl, hne, hx⟩ := h
      exact .inr ⟨hne, hx, rfl⟩
  · intro h
    rcases h with ⟨hstart, rfl, rfl⟩ | ⟨hne, hx, rfl⟩
    · exact ⟨hnext, hstart, rfl⟩
    · exact ⟨hnext, rfl, hne, hx⟩

theorem mem_offers : (x, a) ∈ offers g q i ↔ Asks g q i x a := by
  unfold offers
  split
  · next y hnext =>
    rw [asks_of_some hnext]
    split
    · next r hgoes =>
      rw [List.mem_singleton, Prod.mk.injEq]
      refine and_congr_right fun _ => ⟨fun ha => ⟨r, hgoes, ha⟩, fun h => ?_⟩
      obtain ⟨r', hgoes', ha⟩ := h
      obtain rfl := Grammar.Goes.unique hgoes hgoes'
      exact ha
    · next hno =>
      refine ⟨fun h => absurd h List.not_mem_nil, fun h => ?_⟩
      obtain ⟨-, r, hgoes, -⟩ := h
      exact absurd hgoes (hno r)
  · next hnext =>
    rw [asks_of_none hnext]
    split
    · next hstart => simp [hstart]
    · next hstart => simp [hstart, eq_comm, OrdSet.mem_def]

/-! ## Rows and tables -/

/-- To enter an item is to write all that it asks for. -/
theorem enterItem_eq (s : Row × List Conflict) :
    enterItem g g.followSets (Collection.ofGrammar g) q s i =
      (offers g q i).foldl (Row.write q) s := by
  have hps : (Collection.ofGrammar g).productions = g.augmentedProductions := rfl
  rw [enterItem, offers, hps]
  cases hnext : i.next? g.augmentedProductions with
  | some x =>
    dsimp only
    cases hgoes : (Collection.ofGrammar g).transition? q x with
    | none => rfl
    | some t =>
      cases t with
      | accept => rfl
      | state r =>
        by_cases hx : g.isNonterminal x = true
        · simp only [hx, if_true]
          rfl
        · simp only [hx, Bool.false_eq_true, if_false]
          rfl
  | none =>
    dsimp only
    split
    · rfl
    · rw [List.foldl_map]
      rfl

/-- A row is filled by writing all that its items ask for. -/
theorem fillRow_eq {items : ItemSet} :
    fillRow g g.followSets (Collection.ofGrammar g) q items =
      (items.toList.flatMap (offers g q)).foldl (Row.write q) (∅, []) := by
  rw [fillRow, List.foldl_flatMap]
  congr 1
  funext s i
  exact enterItem_eq s

/-- The filled row of a state, with the conflicts in it. -/
def filled (g : Grammar) (q : Nat) (items : ItemSet) : Row × List Conflict :=
  fillRow g g.followSets (Collection.ofGrammar g) q items

theorem getElem?_filled :
    ((Text.numberFrom 0 (Collection.ofGrammar g).states).map
      fun (n, s) => filled g n s.items)[q]? =
      (Collection.itemSets g.augmentedProductions)[q]?.map (filled g q) := by
  rw [List.getElem?_map, Text.getElem?_numberFrom, Collection.ofGrammar, List.getElem?_map,
    Option.map_map, Option.map_map, Nat.zero_add]
  rfl

theorem action?_ofGrammar :
    (ofGrammar g).action? q x =
      (Collection.itemSets g.augmentedProductions)[q]?.bind
        fun items => (filled g q items).1.get? x := by
  have hrows : (ofGrammar g).rows = ((Text.numberFrom 0 (Collection.ofGrammar g).states).map
      fun (n, s) => filled g n s.items).map Prod.fst := rfl
  rw [action?, hrows, List.getElem?_map, getElem?_filled]
  cases (Collection.itemSets g.augmentedProductions)[q]? <;> rfl

/-- **Every action of a table was asked for** by an item of its state. -/
theorem asks_of_action? (h : (ofGrammar g).action? q x = some a) :
    ∃ i, g.HasItem q i ∧ Asks g q i x a := by
  rw [action?_ofGrammar] at h
  obtain ⟨items, hq, h⟩ := Option.bind_eq_some_iff.1 h
  rw [filled, fillRow_eq] at h
  have hmem := (Row.get?_foldl_write h).resolve_left (by simp)
  obtain ⟨i, hi, hmem⟩ := List.mem_flatMap.1 hmem
  exact ⟨i, ⟨items, hq, hi⟩, mem_offers.1 hmem⟩

/-- **A cell for which an action is asked is not empty**, whichever action wins it. -/
theorem exists_action?_of_asks (hi : g.HasItem q i) (h : Asks g q i x a) :
    ∃ b, (ofGrammar g).action? q x = some b := by
  obtain ⟨items, hq, hi⟩ := hi
  rw [action?_ofGrammar, hq, Option.bind_some, filled, fillRow_eq, ← Option.isSome_iff_exists]
  exact Row.isSome_get?_foldl_write
    (.inr ⟨(x, a), List.mem_flatMap.2 ⟨i, hi, mem_offers.2 h⟩, rfl⟩)

/-- **A table without conflicts has every action that is asked for.** -/
theorem action?_of_asks (hnone : (ofGrammar g).conflicts = []) (hi : g.HasItem q i)
    (h : Asks g q i x a) : (ofGrammar g).action? q x = some a := by
  obtain ⟨items, hq, hi⟩ := hi
  have hconflicts : (ofGrammar g).conflicts =
      ((Text.numberFrom 0 (Collection.ofGrammar g).states).map
        fun (n, s) => filled g n s.items).flatMap Prod.snd := rfl
  rw [hconflicts, List.flatMap_eq_nil_iff] at hnone
  have hmem : filled g q items ∈ (Text.numberFrom 0 (Collection.ofGrammar g).states).map
      fun (n, s) => filled g n s.items := by
    refine List.mem_of_getElem? (i := q) ?_
    rw [getElem?_filled, hq, Option.map_some]
  have hrow := hnone _ hmem
  rw [filled, fillRow_eq] at hrow
  obtain ⟨-, -, hget⟩ := Row.extends_foldl_write hrow
  rw [action?_ofGrammar, hq, Option.bind_some, filled, fillRow_eq]
  exact hget (x, a) (List.mem_flatMap.2 ⟨i, hi, mem_offers.2 h⟩)

end ParseTable

end Frontend
