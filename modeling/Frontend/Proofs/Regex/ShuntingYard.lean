import Frontend.Regex.Postfix
import Frontend.Proofs.Regex.Trees

/-!
# From infix to postfix

The passes behind the desugaring take operands, stars, concatenations and alternatives, with as
many parentheses as their precedences ask for or more (`Expresses`); they would also take several
stars in a row, which no pattern has. What comes out while a part is read is the postorder of that
part, except for operators at its end that still wait (`Drains`); they bind at least as tightly as
the part does, so the next operator outside the part sends them out. A whole expression gives its
postorder (`toPostfix_of_expresses`).
-/

namespace Frontend.Regex

variable {lvl : Level} {ts us : List Token} {p q : Pattern}

/-! ## Written expressions -/

/-- The tokens express the pattern, with concatenation left implicit. Stars bind tighter than
concatenation and this tighter than alternatives, and both group to the left; where a part would
be bound otherwise it is put in parentheses, and any part can be. -/
inductive Expresses : Level → List Token → Pattern → Prop
  | char (c : Char) : Expresses .atom [.literal c] (.char c)
  | epsilon : Expresses .atom [.op .epsilon] .epsilon
  | group {ts : List Token} {p : Pattern} (h : Expresses .alt ts p) :
    Expresses .atom (.op .openParen :: ts ++ [.op .closeParen]) p
  | ofAtom {ts : List Token} {p : Pattern} (h : Expresses .atom ts p) : Expresses .suffixed ts p
  | star {ts : List Token} {p : Pattern} (h : Expresses .suffixed ts p) :
    Expresses .suffixed (ts ++ [.op .star]) (.star p)
  | ofSuffixed {ts : List Token} {p : Pattern} (h : Expresses .suffixed ts p) :
    Expresses .concat ts p
  | concat {ts us : List Token} {p q : Pattern} (h : Expresses .concat ts p)
    (h' : Expresses .suffixed us q) : Expresses .concat (ts ++ us) (.concat p q)
  | ofConcat {ts : List Token} {p : Pattern} (h : Expresses .concat ts p) : Expresses .alt ts p
  | alt {ts us : List Token} {p q : Pattern} (h : Expresses .alt ts p)
    (h' : Expresses .concat us q) : Expresses .alt (ts ++ .op .alt :: us) (.alt p q)

/-- What is read as a pattern of the core expresses it. -/
theorem Reads.expresses (h : Reads lvl ts p) (hp : p.IsCore) : Expresses lvl ts p := by
  induction h with
  | char c => exact .char c
  | epsilon => exact .epsilon
  | group _ ih => exact .group (ih hp)
  | charClass | plus | optional => exact hp.elim
  | ofAtom _ ih => exact .ofAtom (ih hp)
  | star _ ih => exact .star (.ofAtom (ih hp))
  | ofSuffixed _ ih => exact .ofSuffixed (ih hp)
  | concat _ _ ih ih' => exact .concat (ih hp.1) (ih' hp.2)
  | ofConcat _ ih => exact .ofConcat (ih hp)
  | alt _ _ ih ih' => exact .alt (ih hp.1) (ih' hp.2)

/-- A written expression begins with a token that can begin one. -/
theorem Expresses.exists_starts (h : Expresses lvl ts p) :
    ∃ t rest, ts = t :: rest ∧ t.startsOperand = true := by
  induction h with
  | char | epsilon | group => exact ⟨_, _, rfl, rfl⟩
  | ofAtom _ ih | ofSuffixed _ ih | ofConcat _ ih => exact ih
  | star _ ih | concat _ _ ih _ | alt _ _ ih _ =>
    obtain ⟨t, rest, rfl, ht⟩ := ih
    exact ⟨t, _, List.cons_append, ht⟩

/-- A written expression ends in a token that can end one. -/
theorem Expresses.exists_ends (h : Expresses lvl ts p) :
    ∃ front t, ts = front ++ [t] ∧ t.endsOperand = true := by
  induction h with
  | char | epsilon => exact ⟨[], _, rfl, rfl⟩
  | group | star => exact ⟨_, _, rfl, rfl⟩
  | ofAtom _ ih | ofSuffixed _ ih | ofConcat _ ih => exact ih
  | @concat ts _ _ _ _ _ _ ih =>
    obtain ⟨front, t, rfl, ht⟩ := ih
    exact ⟨ts ++ front, t, (List.append_assoc ..).symm, ht⟩
  | @alt ts _ _ _ _ _ _ ih =>
    obtain ⟨front, t, rfl, ht⟩ := ih
    exact ⟨ts ++ .op .alt :: front, t, by simp, ht⟩

/-! ## Explicit concatenation -/

/-- Concatenation is made explicit in two parts apart, and where they meet. -/
theorem insertConcat_append (front rest : List Token) (t u : Token) :
    insertConcat (front ++ t :: u :: rest) =
      insertConcat (front ++ [t]) ++
        ((if t.endsOperand && u.startsOperand then [.op .concat] else []) ++
          insertConcat (u :: rest)) := by
  induction front with
  | nil =>
    simp only [List.nil_append, insertConcat]
    split
    · rfl
    · rfl
  | cons s front ih =>
    cases front with
    | nil =>
      simp only [List.cons_append, List.nil_append] at ih ⊢
      rw [insertConcat, ih]
      simp only [insertConcat]
      split
      · rfl
      · rfl
    | cons s' front =>
      simp only [List.cons_append] at ih ⊢
      rw [insertConcat, ih, insertConcat]
      split
      · rfl
      · rfl

/-- Concatenation is made explicit between two expressions in a row. -/
theorem insertConcat_expresses_append {lvl' : Level} (h : Expresses lvl ts p)
    (h' : Expresses lvl' us q) :
    insertConcat (ts ++ us) = insertConcat ts ++ .op .concat :: insertConcat us := by
  obtain ⟨front, t, rfl, ht⟩ := h.exists_ends
  obtain ⟨u, rest, rfl, hu⟩ := h'.exists_starts
  rw [List.append_assoc, List.singleton_append, insertConcat_append, ht, hu]
  rfl

/-- Nothing is put before an operator that does not begin an expression. -/
theorem insertConcat_expresses_op (h : Expresses lvl ts p) {o : Op} (rest : List Token)
    (ho : (Token.op o).startsOperand = false) :
    insertConcat (ts ++ .op o :: rest) = insertConcat ts ++ insertConcat (.op o :: rest) := by
  obtain ⟨front, t, rfl, -⟩ := h.exists_ends
  rw [List.append_assoc, List.singleton_append, insertConcat_append, ho, Bool.and_false]
  rfl

/-- Nothing is put after an operator that does not end an expression. -/
theorem insertConcat_op_expresses (h : Expresses lvl ts p) {o : Op} (rest : List Token)
    (ho : (Token.op o).endsOperand = false) :
    insertConcat (.op o :: (ts ++ rest)) = .op o :: insertConcat (ts ++ rest) := by
  obtain ⟨t, more, rfl, -⟩ := h.exists_starts
  rw [List.cons_append, insertConcat, ho, Bool.false_and]
  rfl

/-! ## Postfix form -/

/-- The tokens of a pattern in postfix form. Only the patterns of the core have one. -/
def Pattern.postorder : Pattern → List Token
  | char c => [.literal c]
  | epsilon => [.op .epsilon]
  | charClass _ | plus _ | optional _ => []
  | star p => p.postorder ++ [.op .star]
  | concat p q => p.postorder ++ q.postorder ++ [.op .concat]
  | alt p q => p.postorder ++ q.postorder ++ [.op .alt]

theorem Expr.postorder_pattern {e : Expr} (he : e.Plain) :
    e.pattern.postorder = e.postorder := by
  induction e with
  | symbol n c => rfl
  | epsilon => rfl
  | marker n => exact he.elim
  | star e ih => rw [pattern, Pattern.postorder, ih he, postorder]
  | concat l r ihl ihr => rw [pattern, Pattern.postorder, ihl he.1, ihr he.2, postorder]
  | alt l r ihl ihr => rw [pattern, Pattern.postorder, ihl he.1, ihr he.2, postorder]

/-- How tightly an operator must bind to stand inside a part of this level. -/
def Level.binding : Level → Nat
  | alt => 0
  | concat => 1
  | suffixed => 2
  | atom => 3

/-- No operator that waits is sent out by one inside a part of this level. -/
def Level.Rests (lvl : Level) (waiting : List Op) : Prop :=
  ∀ o ∈ waiting.head?, o = .openParen ∨ o.precedence < lvl.binding

/-- While the tokens are read, `post` comes out, except for operators at its end that wait then
and bind as tightly as the level does. -/
def Drains (lvl : Level) (ts post : List Token) : Prop :=
  ∃ (out : List Token) (pending : List Op),
    out ++ pending.map .op = post ∧
    (∀ o ∈ pending, o ≠ .openParen ∧ lvl.binding ≤ o.precedence) ∧
    ∀ waiting rest, lvl.Rests waiting →
      postfixFrom waiting (ts ++ rest) = out ++ postfixFrom (pending ++ waiting) rest

/-- The operators that wait for a part are sent out by an operator which binds no tighter, and
no more than these are. -/
theorem takeWhile_yields {pending waiting : List Op} {o : Op}
    (hpending : ∀ p ∈ pending, p ≠ .openParen ∧ lvl.binding ≤ p.precedence)
    (hwaiting : lvl.Rests waiting) (ho : o.precedence = lvl.binding) :
    (pending ++ waiting).takeWhile (yields o) = pending ∧
      (pending ++ waiting).dropWhile (yields o) = waiting := by
  have hall : ∀ p ∈ pending, yields o p = true := by
    intro p hp
    obtain ⟨hne, hle⟩ := hpending p hp
    rw [yields, Bool.and_eq_true, bne_iff_ne, decide_eq_true_eq]
    exact ⟨hne, ho ▸ hle⟩
  rw [List.takeWhile_append_of_pos hall, List.dropWhile_append_of_pos hall]
  -- The operator below is a parenthesis or binds less tightly, so it stays.
  cases waiting with
  | nil => simp
  | cons w waiting =>
    have hw : yields o w = false := by
      rcases hwaiting w rfl with rfl | hlt
      · rfl
      · rw [yields, Bool.and_eq_false_iff, decide_eq_false_iff_not]
        exact .inr (by omega)
    rw [List.takeWhile_cons, hw, List.dropWhile_cons, hw]
    simp

/-- An operand comes out at once. -/
theorem drains_operand {lvl : Level} {t : Token} (ht : t.isOperand = true) :
    Drains lvl [t] [t] := by
  refine ⟨[t], [], rfl, fun o ho => absurd ho List.not_mem_nil, fun waiting rest _ => ?_⟩
  cases t with
  | literal c => rfl
  | op o =>
    cases o with
    | epsilon => rfl
    | _ => cases ht

/-- What drains as a part of some level drains as a part of a looser one. -/
theorem Drains.loosen {lvl lvl' : Level} {post : List Token} (h : Drains lvl ts post)
    (hle : lvl'.binding ≤ lvl.binding) : Drains lvl' ts post := by
  obtain ⟨out, pending, hpost, hpending, hrun⟩ := h
  refine ⟨out, pending, hpost, fun o ho => ⟨(hpending o ho).1, hle.trans (hpending o ho).2⟩, ?_⟩
  intro waiting rest hwaiting
  exact hrun waiting rest fun o ho => (hwaiting o ho).imp_right fun hlt => hlt.trans_le hle

/-- A group drains at once when its parenthesis is closed. -/
theorem Drains.group {post : List Token} (h : Drains .alt ts post) :
    Drains .atom (.op .openParen :: (ts ++ [.op .closeParen])) post := by
  obtain ⟨out, pending, rfl, hpending, hrun⟩ := h
  refine ⟨out ++ pending.map .op, [], by simp, fun o ho => absurd ho List.not_mem_nil, ?_⟩
  intro waiting rest _
  have hrests : Level.alt.Rests (.openParen :: waiting) := by
    intro o heq
    cases heq
    exact .inl rfl
  have hall : ∀ o ∈ pending, (o != .openParen) = true := fun o ho =>
    bne_iff_ne.2 (hpending o ho).1
  rw [List.cons_append, List.append_assoc, postfixFrom, hrun _ _ hrests, List.singleton_append,
    postfixFrom, List.takeWhile_append_of_pos hall, List.dropWhile_append_of_pos hall]
  simp

/-- A postfix star waits. -/
theorem Drains.star {post : List Token} (h : Drains .suffixed ts post) :
    Drains .suffixed (ts ++ [.op .star]) (post ++ [.op .star]) := by
  obtain ⟨out, pending, rfl, hpending, hrun⟩ := h
  refine ⟨out ++ pending.map .op, [.star], rfl, ?_, ?_⟩
  · intro o ho
    rw [List.mem_singleton.1 ho]
    exact ⟨Op.noConfusion, le_rfl⟩
  · intro waiting rest hwaiting
    obtain ⟨htake, hdrop⟩ := takeWhile_yields (o := .star) hpending hwaiting rfl
    rw [List.append_assoc, hrun _ _ hwaiting, List.singleton_append, postfixFrom, htake, hdrop]
    · simp
    all_goals exact Op.noConfusion

/-- An operator between two parts waits below what waits for the second. -/
theorem Drains.binary {lvl lvl' : Level} {o : Op} {post post' : List Token}
    (h : Drains lvl ts post) (h' : Drains lvl' us post') (ho : o = .concat ∨ o = .alt)
    (hlvl : o.precedence = lvl.binding) (hlvl' : o.precedence < lvl'.binding) :
    Drains lvl (ts ++ .op o :: us) (post ++ post' ++ [.op o]) := by
  obtain ⟨out, pending, rfl, hpending, hrun⟩ := h
  obtain ⟨out', pending', rfl, hpending', hrun'⟩ := h'
  refine ⟨out ++ pending.map .op ++ out', pending' ++ [o], by simp, ?_, ?_⟩
  · intro p hp
    rcases List.mem_append.1 hp with hp | hp
    · exact ⟨(hpending' p hp).1, by have := (hpending' p hp).2; omega⟩
    · rw [List.mem_singleton.1 hp]
      rcases ho with rfl | rfl
      · exact ⟨Op.noConfusion, hlvl.ge⟩
      · exact ⟨Op.noConfusion, hlvl.ge⟩
  · intro waiting rest hwaiting
    obtain ⟨htake, hdrop⟩ := takeWhile_yields hpending hwaiting hlvl
    have hrests : lvl'.Rests (o :: waiting) := by
      intro p heq
      cases heq
      exact .inr hlvl'
    -- The operator sends out what waits for the first part, and waits for the second.
    have hput : postfixFrom (pending ++ waiting) (.op o :: (us ++ rest)) =
        pending.map .op ++ postfixFrom (o :: waiting) (us ++ rest) := by
      rcases ho with rfl | rfl
      · rw [postfixFrom, htake, hdrop]
        all_goals exact Op.noConfusion
      · rw [postfixFrom, htake, hdrop]
        all_goals exact Op.noConfusion
    rw [List.append_assoc, hrun _ _ hwaiting, List.cons_append, hput, hrun' _ _ hrests]
    simp

/-- **While an expression is read, its postorder comes out.** The induction is on how it is
written; each level keeps back operators that bind as tightly as it does. -/
theorem drains_of_expresses (h : Expresses lvl ts p) : Drains lvl (insertConcat ts) p.postorder := by
  induction h with
  | char c => exact drains_operand rfl
  | epsilon => exact drains_operand rfl
  | group h ih =>
    rw [List.cons_append, insertConcat_op_expresses h _ rfl, insertConcat_expresses_op h _ rfl]
    exact ih.group
  | ofAtom _ ih => exact ih.loosen (Nat.le_succ _)
  | star h ih =>
    rw [insertConcat_expresses_op h _ rfl]
    exact ih.star
  | ofSuffixed _ ih => exact ih.loosen (Nat.le_succ _)
  | concat h h' ih ih' =>
    rw [insertConcat_expresses_append h h']
    exact ih.binary ih' (.inl rfl) rfl (Nat.lt_succ_self _)
  | ofConcat _ ih => exact ih.loosen (Nat.le_succ _)
  | alt h h' ih ih' =>
    rw [insertConcat_expresses_op h _ rfl, ← List.append_nil (_ :: _), List.cons_append,
      insertConcat_op_expresses h' _ rfl, List.append_nil]
    exact ih.binary ih' (.inr rfl) rfl (Nat.lt_succ_self _)

/-- **A written expression comes out in postfix form.** -/
theorem toPostfix_of_expresses (h : Expresses .alt ts p) :
    toPostfix (insertConcat ts) = p.postorder := by
  obtain ⟨out, pending, hpost, hpending, hrun⟩ := drains_of_expresses h
  have hall : pending.filter (· != .openParen) = pending :=
    List.filter_eq_self.2 fun o ho => bne_iff_ne.2 (hpending o ho).1
  have hread := hrun [] [] fun o ho => by cases ho
  rw [List.append_nil, List.append_nil, postfixFrom, hall, hpost] at hread
  exact hread

end Frontend.Regex
