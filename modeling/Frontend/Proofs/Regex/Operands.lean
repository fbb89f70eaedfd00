import Frontend.Proofs.Regex.Readability

/-!
# Every postfix operator finds its operand

Optional and repeated expressions are replaced before the classes are read, so the pass that
replaces them can meet classes that cannot be read: operators in classes, and classes in classes.
It finds every operand all the same, if brackets nest and operators have their operands
(`exists_desugar`). In what it has written brackets nest, apart from those that are still to be
closed (`Nested`), so the search for an operand that ends in a bracket ends; and a postfix operator
that is at no fault stands behind a token that ends an operand (`Written`).
-/

namespace Frontend.Regex

variable {opened : List Op} {ts us out rest : List Token} {t : Token} {o c : Op}
  {prev : Option Token} {inClass : Bool}

/-! ## Brackets in what has been written -/

/-- The second operator closes what the first one opens. -/
inductive Closes : Op → Op → Prop
  | paren : Closes .openParen .closeParen
  | bracket : Closes .openBracket .closeBracket

/-- In reversed tokens brackets nest, apart from those in `opened`, which are still to be closed,
the latest first. -/
inductive Nested : List Op → List Token → Prop
  | nil : Nested [] []
  | token {opened : List Op} {ts : List Token} {t : Token} (ht : t.isBracket = false)
    (h : Nested opened ts) : Nested opened (t :: ts)
  | opening {opened : List Op} {ts : List Token} {o c : Op} (hpair : Closes o c)
    (h : Nested opened ts) : Nested (o :: opened) (.op o :: ts)
  | group {opened : List Op} {us ts : List Token} {o c : Op} (hpair : Closes o c)
    (h : Nested [] us) (h' : Nested opened ts) : Nested opened (.op c :: (us ++ .op o :: ts))

theorem Closes.isBracket (hpair : Closes o c) :
    (Token.op o).isBracket = true ∧ (Token.op c).isBracket = true := by
  cases hpair with
  | paren => exact ⟨rfl, rfl⟩
  | bracket => exact ⟨rfl, rfl⟩

theorem Closes.ne (hpair : Closes o c) : Token.op o ≠ .op c := by
  cases hpair with
  | paren => exact nofun
  | bracket => exact nofun

/-- A group of either kind is passed over, in a search for the bracket of either kind. -/
theorem Closes.skips_group {o' c' : Op} (hpair : Closes o c) (hpair' : Closes o' c')
    (h : Skips (.op o) (.op c) ts) : Skips (.op o) (.op c) (.op c' :: ts ++ [.op o']) := by
  cases hpair with
  | paren =>
    cases hpair' with
    | paren => exact h.group nofun
    | bracket =>
      have hclosing : Skips (.op .openParen) (.op .closeParen) [.op .closeBracket] :=
        skips_singleton nofun nofun
      exact (hclosing.append h).append (skips_singleton nofun nofun)
  | bracket =>
    cases hpair' with
    | paren =>
      have hclosing : Skips (.op .openBracket) (.op .closeBracket) [.op .closeParen] :=
        skips_singleton nofun nofun
      exact (hclosing.append h).append (skips_singleton nofun nofun)
    | bracket => exact h.group nofun

/-- What is opened is to be closed next. -/
theorem Closes.nests_opening (hpair : Closes o c) :
    nests opened (.op o :: rest) = nests (o :: opened) rest := by
  cases hpair with
  | paren => rfl
  | bracket => rfl

theorem Closes.nests_closing (hpair : Closes o c) :
    nests (o :: opened) (.op c :: rest) = nests opened rest := by
  cases hpair with
  | paren => rfl
  | bracket => rfl

/-- What is closed is what was opened last. -/
theorem Closes.nests_closing_iff (hpair : Closes o c) :
    nests opened (.op c :: rest) = true ↔ ∃ outer, opened = o :: outer ∧ nests outer rest = true := by
  constructor
  · intro h
    cases opened with
    | nil =>
      cases hpair with
      | paren => cases h
      | bracket => cases h
    | cons last outer =>
      cases hpair with
      | paren =>
        cases last with
        | openParen => exact ⟨outer, rfl, h⟩
        | _ => cases h
      | bracket =>
        cases last with
        | openBracket => exact ⟨outer, rfl, h⟩
        | _ => cases h
  · rintro ⟨outer, rfl, h⟩
    exact hpair.nests_closing.trans h

/-- A token is no bracket, or it is one that is closed or one that closes. -/
theorem Token.bracket_cases (t : Token) :
    t.isBracket = false ∨ ∃ o c, Closes o c ∧ (t = .op o ∨ t = .op c) := by
  cases t with
  | literal => exact .inl rfl
  | op o =>
    cases o with
    | openParen => exact .inr ⟨_, _, .paren, .inl rfl⟩
    | closeParen => exact .inr ⟨_, _, .paren, .inr rfl⟩
    | openBracket => exact .inr ⟨_, _, .bracket, .inl rfl⟩
    | closeBracket => exact .inr ⟨_, _, .bracket, .inr rfl⟩
    | _ => exact .inl rfl

namespace Nested

theorem append (h : Nested [] us) (h' : Nested opened ts) : Nested opened (us ++ ts) := by
  generalize hclosed : ([] : List Op) = opened' at h
  induction h with
  | nil => exact h'
  | token ht _ ih => exact .token ht (ih hclosed)
  | opening => cases hclosed
  | group hpair h _ _ ih =>
    rw [List.cons_append, List.append_assoc, List.cons_append]
    exact .group hpair h (ih hclosed)

/-- Behind the bracket that was opened last all groups are closed. -/
theorem exists_opening (h : Nested (o :: opened) ts) :
    ∃ us before, ts = us ++ .op o :: before ∧ Nested [] us ∧ Nested opened before := by
  generalize hlast : o :: opened = opened' at h
  induction h with
  | nil => cases hlast
  | token ht _ ih =>
    obtain ⟨us, before, rfl, hus, hbefore⟩ := ih hlast
    exact ⟨_ :: us, before, rfl, .token ht hus, hbefore⟩
  | opening _ h =>
    obtain ⟨rfl, rfl⟩ := List.cons.inj hlast
    exact ⟨[], _, rfl, .nil, h⟩
  | group hpair h _ _ ih =>
    obtain ⟨us, before, rfl, hus, hbefore⟩ := ih hlast
    exact ⟨_, before, by simp, .group hpair h hus, hbefore⟩

theorem of_token (h : Nested opened (t :: out)) (ht : t.isBracket = false) :
    Nested opened out := by
  cases h with
  | token _ h => exact h
  | opening hpair =>
    rw [hpair.isBracket.1] at ht
    cases ht
  | group hpair =>
    rw [hpair.isBracket.2] at ht
    cases ht

/-- A closing bracket is the end of a group. -/
theorem exists_group (hpair : Closes o c) (h : Nested opened (.op c :: out)) :
    ∃ us before, out = us ++ .op o :: before ∧ Nested [] us ∧ Nested opened before := by
  cases h with
  | token hbracket =>
    rw [hpair.isBracket.2] at hbracket
    cases hbracket
  | opening hpair' =>
    cases hpair with
    | paren | bracket => cases hpair'
  | group hpair' hus hbefore =>
    cases hpair with
    | paren | bracket =>
      cases hpair'
      exact ⟨_, _, rfl, hus, hbefore⟩

/-- Brackets nest as before behind one token more. -/
theorem exists_next (h : Nested opened out) (hnests : nests opened (t :: rest) = true) :
    ∃ opened', nests opened' rest = true ∧ Nested opened' (t :: out) := by
  rcases t.bracket_cases with hbracket | ⟨o, c, hpair, rfl | rfl⟩
  · exact ⟨opened, nests_of_cons hnests hbracket, .token hbracket h⟩
  · rw [hpair.nests_opening] at hnests
    exact ⟨o :: opened, hnests, .opening hpair h⟩
  · obtain ⟨outer, rfl, hrest⟩ := hpair.nests_closing_iff.1 hnests
    obtain ⟨us, before, rfl, hus, hbefore⟩ := h.exists_opening
    exact ⟨outer, hrest, .group hpair hus hbefore⟩

/-- A search for an opening bracket passes over tokens in which brackets nest. -/
theorem skips (hpair : Closes o c) (h : Nested [] ts) : Skips (.op o) (.op c) ts := by
  have hne : ∀ {t : Token}, t.isBracket = false → t ≠ .op o ∧ t ≠ .op c := by
    intro t ht
    refine ⟨fun heq => ?_, fun heq => ?_⟩
    · rw [heq, hpair.isBracket.1] at ht
      cases ht
    · rw [heq, hpair.isBracket.2] at ht
      cases ht
  generalize hclosed : ([] : List Op) = opened' at h
  induction h with
  | nil => exact skips_nil
  | token ht _ ih => exact (skips_singleton (hne ht).1 (hne ht).2).append (ih hclosed)
  | opening => cases hclosed
  | group hpair' _ _ ih ih' =>
    have hgroup := hpair.skips_group hpair' (ih rfl)
    have hall := hgroup.append (ih' hclosed)
    rwa [List.append_assoc, List.singleton_append, List.cons_append] at hall

end Nested

/-! ## The operand at the end -/

/-- An operand without stars can end in the token. -/
def Token.EndsAtom (t : Token) : Prop :=
  t.isOperand = true ∨ ∃ o c, Closes o c ∧ t = .op c

/-- Behind a closing bracket the operand is the group that it closes. -/
theorem splitOperand?_closing (hpair : Closes o c) {split : List Token × List Token}
    (h : splitGroup? (.op o) (.op c) 0 (.op c :: out) = some split) :
    splitOperand? (.op c :: out) = some split := by
  cases hpair with
  | paren =>
    show (splitGroup? _ _ 0 _).map _ = _
    rw [h]
    rfl
  | bracket =>
    show (splitGroup? _ _ 0 _).map _ = _
    rw [h]
    rfl

/-- **Behind a token that ends an operand the search finds one**, and leaves what is before it. -/
theorem exists_splitOperand? (h : Nested opened (t :: out)) (ht : t.EndsAtom) :
    ∃ operand before, splitOperand? (t :: out) = some (operand, before) ∧
      Nested [] operand ∧ Nested opened before := by
  rcases ht with ht | ⟨o, c, hpair, rfl⟩
  · obtain ⟨hbracket, hsplit⟩ : t.isBracket = false ∧
        splitOperand? (t :: out) = some ([t], out) := by
      cases t with
      | literal c => exact ⟨rfl, rfl⟩
      | op o =>
        cases o with
        | epsilon => exact ⟨rfl, rfl⟩
        | _ => cases ht
    exact ⟨[t], out, hsplit, .token hbracket .nil, h.of_token hbracket⟩
  · obtain ⟨us, before, rfl, hus, hbefore⟩ := h.exists_group hpair
    refine ⟨.op c :: (us ++ [.op o]), before, ?_, .group hpair hus .nil, hbefore⟩
    exact splitOperand?_closing hpair (splitGroup?_group (hus.skips hpair) hpair.ne before)

/-! ## The pass over all tokens -/

/-- What has been written when the tokens up to `prev` have been gone through: brackets nest in
it, and it ends in an operand if a postfix operator can come. -/
structure Written (opened : List Op) (inClass : Bool) (prev : Option Token) (out : List Token) :
    Prop where
  nested : Nested opened out
  operand : inClass = false → isDangling prev .question = false →
    ∃ t rest, out = t :: rest ∧ t.EndsAtom

/-- A token that stands outside classes and that a postfix operator can follow ends an operand. -/
theorem Token.EndsAtom.of_not_dangling (hfault : sequenceFault? prev t = none)
    (hopening : t ≠ .op .openBracket) (hconcat : t ≠ .op .concat)
    (hdangling : isDangling (some t) .question = false) : t.EndsAtom := by
  cases t with
  | literal c => exact .inl rfl
  | op o =>
    cases o with
    | epsilon => exact .inl rfl
    | closeParen => exact .inr ⟨_, _, .paren, rfl⟩
    | closeBracket => exact .inr ⟨_, _, .bracket, rfl⟩
    | openBracket => exact absurd rfl hopening
    | concat => exact absurd rfl hconcat
    | dash => cases hfault
    | openParen | alt | star | plus | question => cases hdangling

/-- Where one postfix operator can stand, each of them can. -/
theorem isDangling_congr {o' : Op} (ho : o.isPostfix = o'.isPostfix) :
    isDangling prev o = isDangling prev o' := by
  unfold isDangling
  rw [ho]

/-- `?` and `+` are replaced, for there is an operand before them. -/
theorem Written.exists_next_sugar (h : Written opened false prev out)
    (ho : o = .question ∨ o = .plus) (hfault : sequenceFault? prev (.op o) = none) :
    ∃ out', desugarFrom out false (.op o :: rest) = desugarFrom out' false rest ∧
      Written opened false (some (.op o)) out' := by
  have hpostfix : o.isPostfix = true := by
    rcases ho with rfl | rfl
    · rfl
    · rfl
  have hsame : isDangling prev .question = isDangling prev o := isDangling_congr hpostfix.symm
  have hdangling := hsame.trans ((sequenceFault?_eq_none_iff (.inl hpostfix)).1 hfault)
  obtain ⟨t, more, rfl, ht⟩ := h.operand rfl hdangling
  obtain ⟨operand, before, hsplit, hoperand, hbefore⟩ := exists_splitOperand? h.nested ht
  rcases ho with rfl | rfl
  · refine ⟨.op .closeParen :: (.op .epsilon :: .op .alt :: operand ++ .op .openParen :: before),
      ?_, ?_, fun _ h => by cases h⟩
    · rw [desugarFrom, hsplit]
      rfl
    · exact .group .paren (.token rfl (.token rfl hoperand)) hbefore
  · refine ⟨.op .closeParen :: (.op .star :: operand ++ operand ++ .op .openParen :: before),
      ?_, ?_, fun _ h => by cases h⟩
    · rw [desugarFrom, hsplit]
      rfl
    · exact .group .paren (.token rfl (hoperand.append hoperand)) hbefore

/-- **A token that is at no fault leads on**: it is taken over or replaced. -/
theorem Written.exists_next (h : Written opened inClass prev out)
    (hnests : nests opened (t :: rest) = true)
    (hoperators : checkFrom prev inClass (t :: rest) = .ok ()) (hconcat : t ≠ .op .concat) :
    ∃ opened' inClass' out', desugarFrom out inClass (t :: rest) = desugarFrom out' inClass' rest ∧
      nests opened' rest = true ∧ checkFrom (some t) inClass' rest = .ok () ∧
        Written opened' inClass' (some t) out' := by
  obtain ⟨opened', hrest, hnested⟩ := h.nested.exists_next hnests
  cases inClass with
  | true =>
    rw [checkFrom, if_pos rfl] at hoperators
    refine ⟨opened', _, t :: out, ?_, hrest, hoperators, hnested, fun hclosed _ => ?_⟩
    · rw [desugarFrom, Bool.not_true, Bool.false_and, if_neg Bool.false_ne_true]
      by_cases hclosing : t = .op .closeBracket
      · subst hclosing
        rfl
      · rw [if_neg hclosing, ite_self, bne_iff_ne.2 hclosing]
    · rw [bne_eq_false_iff_eq] at hclosed
      exact ⟨t, out, rfl, .inr ⟨_, _, .bracket, hclosed⟩⟩
  | false =>
    obtain ⟨hfault, hoperators⟩ := operators_cons hoperators
    by_cases hsugar : t = .op .question ∨ t = .op .plus
    · rcases hsugar with rfl | rfl
      · obtain ⟨out', hout, hwritten⟩ := h.exists_next_sugar (.inl rfl) hfault
        exact ⟨opened, false, out', hout, nests_of_cons hnests rfl, hoperators, hwritten⟩
      · obtain ⟨out', hout, hwritten⟩ := h.exists_next_sugar (.inr rfl) hfault
        exact ⟨opened, false, out', hout, nests_of_cons hnests rfl, hoperators, hwritten⟩
    · refine ⟨opened', _, t :: out, ?_, hrest, hoperators, hnested, fun hclosed hdangling => ?_⟩
      · obtain ⟨hquestion, hplus⟩ := not_or.1 hsugar
        rw [desugarFrom, beq_false_of_ne hquestion, beq_false_of_ne hplus, Bool.or_false,
          Bool.and_false, if_neg Bool.false_ne_true, ite_self]
        by_cases hopening : t = .op .openBracket
        · subst hopening
          rfl
        · rw [if_neg hopening, beq_false_of_ne hopening]
      · have hopening : t ≠ .op .openBracket := beq_eq_false_iff_ne.1 hclosed
        exact ⟨t, out, rfl, .of_not_dangling hfault hopening hconcat hdangling⟩

/-- The pass goes to the end of the tokens. -/
theorem Written.exists_desugarFrom (h : Written opened inClass prev out)
    (hnests : nests opened ts = true) (hoperators : checkFrom prev inClass ts = .ok ())
    (hconcat : ∀ t ∈ ts, t ≠ .op .concat) : ∃ us, desugarFrom out inClass ts = .ok us := by
  induction ts generalizing opened inClass prev out with
  | nil => exact ⟨out.reverse, rfl⟩
  | cons t ts ih =>
    obtain ⟨ht, hts⟩ := List.forall_mem_cons.1 hconcat
    obtain ⟨opened', inClass', out', hnext, hrest, hahead, hwritten⟩ :=
      h.exists_next hnests hoperators ht
    rw [hnext]
    exact ih hwritten hrest hahead hts

/-- **Where brackets nest and operators have their operands, `?` and `+` can be replaced**, whatever
the classes hold. -/
theorem exists_desugar (hnests : nests [] ts = true) (hoperators : checkOperators ts = .ok ())
    (hconcat : ∀ t ∈ ts, t ≠ .op .concat) : ∃ us, desugar ts = .ok us := by
  have hstart : Written [] false none [] := ⟨.nil, fun _ h => by cases h⟩
  exact hstart.exists_desugarFrom hnests hoperators hconcat

end Frontend.Regex
