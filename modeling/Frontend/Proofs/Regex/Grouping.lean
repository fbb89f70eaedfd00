import Frontend.Proofs.Regex.Acceptance

/-!
# What brackets group is replaced as a whole

Tokens whose brackets nest, whose operators have their operands and whose classes hold literals,
the empty word and dashes alone fall into operands and the operators behind them, whatever the
classes say. So the relation that describes the replacing of `?` and `+` holds of them
(`Checked.replaceable`): an operand is a single token or reaches from a bracket to the one that
closes it (`exists_closing`), a postfix operator stands behind an operand since it is at no fault,
and what follows is shorter. What the relation gives is what the pass gives, it holds neither `?`
nor `+`, and brackets nest in it (`desugar_spec`).
-/

namespace Frontend.Regex

variable {ts us vs rest : List Token} {t : Token} {o : Op} {prev : Option Token} {x : Extent}

/-! ## What replaces a part -/

namespace Desugars

/-- What replaces a part holds neither `?` nor `+`. -/
theorem ne_sugar (h : Desugars x ts us) : ∀ t ∈ us, t ≠ .op .question ∧ t ≠ .op .plus := by
  induction h with
  | literal | epsilon => simp
  | charClass h =>
    intro t ht
    simp only [List.cons_append, List.mem_cons, List.mem_append, List.not_mem_nil, or_false] at ht
    rcases ht with rfl | ht | rfl
    · exact ⟨nofun, nofun⟩
    · rcases h t ht with ⟨c, rfl⟩ | rfl | rfl
      · exact ⟨nofun, nofun⟩
      · exact ⟨nofun, nofun⟩
      · exact ⟨nofun, nofun⟩
    · exact ⟨nofun, nofun⟩
  | nil => simp
  | group _ ih => simpa [or_imp, forall_and] using ih
  | star _ ih | alt _ ih => simpa [or_imp, forall_and] using ih
  | operand _ _ ih ih' => exact List.forall_mem_append.2 ⟨ih, ih'⟩
  | question _ _ ih ih' | plus _ _ ih ih' =>
    simp only [forall_and] at ih ih' ⊢
    simpa [or_imp, forall_and] using ⟨⟨ih.1, ih'.1⟩, ih.2, ih'.2⟩

/-- **Brackets nest in what replaces a part.** -/
theorem balanced (h : Desugars x ts us) : Balanced us := by
  induction h with
  | literal | epsilon => exact .token rfl .nil
  | charClass h => exact .group .bracket h.balanced .nil
  | group _ ih => exact .group .paren ih .nil
  | nil => exact .nil
  | operand _ _ ih ih' => exact ih.append ih'
  | question _ _ ih ih' =>
    have hgroup := Balanced.group .paren (ih.append (.token (t := .op .alt) rfl
      (.token (t := .op .epsilon) rfl .nil))) ih'
    simpa using hgroup
  | plus _ _ ih ih' =>
    have hgroup := Balanced.group .paren (ih.append (ih.append
      (.token (t := .op .star) rfl .nil))) ih'
    simpa using hgroup
  | star _ ih | alt _ ih => exact .token rfl ih

/-- What replaces a part says nothing about how the brackets around it nest. -/
theorem nests_append (h : Desugars x ts us) (opened : List Op) (rest : List Token) :
    nests opened (us ++ rest) = nests opened rest :=
  h.balanced.nests_append opened rest

end Desugars

/-! ## Tokens that pass the checks -/

/-- Every class holds literals, the empty word and dashes alone. -/
def ClassesHoldMembers (ts : List Token) : Prop :=
  ∀ inner, .op .openBracket :: inner ++ [.op .closeBracket] <:+: ts →
    .op .closeBracket ∉ inner → HoldsMembers inner

/-- What a class holds stands before the first bracket that closes one. -/
theorem takeWhile_charClass {inner : List Token} (h : .op .closeBracket ∉ inner)
    (rest : List Token) :
    (inner ++ .op .closeBracket :: rest).takeWhile (· != .op .closeBracket) = inner := by
  have hne : ∀ u ∈ inner, (u != .op .closeBracket) = true := fun u hu =>
    bne_iff_ne.2 fun heq => h (heq ▸ hu)
  rw [List.takeWhile_append_of_pos hne, List.takeWhile_cons_of_neg (by simp), List.append_nil]

theorem classesHoldMembers_cons :
    ClassesHoldMembers (t :: ts) ↔
      (t = .op .openBracket → .op .closeBracket ∈ ts →
        HoldsMembers (ts.takeWhile (· != .op .closeBracket))) ∧ ClassesHoldMembers ts := by
  constructor
  · intro h
    refine ⟨?_, fun inner hinner => h inner (hinner.trans (List.suffix_cons ..).isInfix)⟩
    rintro rfl hmem
    obtain ⟨inner, rest, rfl, hfirst⟩ := List.eq_append_cons_of_mem hmem
    rw [takeWhile_charClass hfirst]
    exact h inner ⟨[], rest, by simp⟩ hfirst
  · rintro ⟨hhead, htail⟩ inner hinner hfirst
    rcases List.infix_cons_iff.1 hinner with hprefix | hinner
    · rw [List.cons_append, List.cons_prefix_cons] at hprefix
      obtain ⟨rfl, rest, rfl⟩ := hprefix
      have hholds := hhead rfl (by simp)
      rwa [List.append_assoc, List.singleton_append, takeWhile_charClass hfirst] at hholds
    · exact htail inner hinner hfirst

instance (inner : List Token) : Decidable (HoldsMembers inner) :=
  decidable_of_iff (∀ t ∈ inner, t.isMember = true) <| forall₂_congr fun t _ => by
    cases t with
    | literal c => simp [Token.isMember]
    | op o => cases o <;> simp [Token.isMember]

instance decidableClassesHoldMembers : (ts : List Token) → Decidable (ClassesHoldMembers ts)
  | [] => isTrue fun _ hinner _ => by simp at hinner
  | t :: ts =>
    have := decidableClassesHoldMembers ts
    decidable_of_iff' _ classesHoldMembers_cons

theorem ClassesHoldMembers.mono (h : ClassesHoldMembers ts) (hsub : us <:+: ts) :
    ClassesHoldMembers us :=
  fun inner hinner => h inner (hinner.trans hsub)

/-- The tokens between `prev` and `ahead` pass the checks. -/
structure Checked (prev : Option Token) (ts ahead : List Token) : Prop where
  nests : nests [] ts = true
  operators : checkFrom prev false (ts ++ ahead) = .ok ()
  classes : ClassesHoldMembers ts
  ne_concat : ∀ t ∈ ts, t ≠ .op .concat

/-- No operand stands before the tokens that `?` or `+` at their head could apply to. -/
def Fresh (prev : Option Token) (ts : List Token) : Prop :=
  ∀ t ∈ ts.head?, t = .op .question ∨ t = .op .plus → isDangling prev .question = true

/-- `?` and `+` can be replaced in the tokens before `ahead`, and the check goes on behind them. -/
def Replaceable (ts ahead : List Token) : Prop :=
  ∃ us prev, Desugars .sequence ts us ∧ checkFrom prev false ahead = .ok ()

variable {ahead e e' : List Token}

theorem Fresh.of_dangling (h : isDangling prev .question = true) : Fresh prev ts :=
  fun _ _ _ => h

/-- Behind a token that is not a bracket the tokens pass the checks as well. -/
theorem Checked.tail (h : Checked prev (t :: ts) ahead) (ht : t.isBracket = false) :
    sequenceFault? prev t = none ∧ Checked (some t) ts ahead := by
  obtain ⟨hfault, hoperators⟩ := operators_cons h.operators
  have hopening : (t == .op .openBracket) = false := by
    rw [beq_eq_false_iff_ne]
    rintro rfl
    cases ht
  rw [hopening] at hoperators
  exact ⟨hfault, nests_of_cons h.nests ht, hoperators,
    h.classes.mono (List.suffix_cons ..).isInfix, fun _ hmem => h.ne_concat _ (.tail _ hmem)⟩

/-- `?` and `+` do not stand where they could not apply to anything. -/
theorem Checked.ne_sugar (h : Checked prev (t :: ts) ahead) (hfresh : Fresh prev (t :: ts)) :
    t ≠ .op .question ∧ t ≠ .op .plus := by
  have hsugar : ∀ {o : Op}, o = .question ∨ o = .plus → t ≠ .op o := by
    rintro o ho rfl
    have hdangling : isDangling prev .question = true := by
      refine hfresh _ rfl ?_
      rcases ho with rfl | rfl
      · exact .inl rfl
      · exact .inr rfl
    have hpostfix : o.isPostfix = true := by
      rcases ho with rfl | rfl
      · rfl
      · rfl
    have hsame : isDangling prev .question = isDangling prev o := isDangling_congr hpostfix.symm
    have hfault := (sequenceFault?_eq_none_iff (.inl hpostfix)).1 (operators_cons h.operators).1
    rw [hsame, hfault] at hdangling
    cases hdangling
  exact ⟨hsugar (.inl rfl), hsugar (.inr rfl)⟩

/-- Behind an operand stands the operator that applies to it, or none. -/
theorem Checked.behind_operand (he : Desugars .operand e e') (h : Checked prev ts ahead)
    (ih : ∀ {prev' ts'}, ts'.length ≤ ts.length → Checked prev' ts' ahead → Fresh prev' ts' →
      Replaceable ts' ahead) :
    Replaceable (e ++ ts) ahead := by
  by_cases hsugar : ∃ t ∈ ts.head?, t = .op .question ∨ t = .op .plus
  · obtain ⟨t, hhead, hsugar⟩ := hsugar
    obtain ⟨ts, rfl⟩ := List.head?_eq_some_iff.1 hhead
    have hshorter : ts.length ≤ (t :: ts).length := Nat.le_succ _
    rcases hsugar with rfl | rfl
    · obtain ⟨us, prev', hus, hahead⟩ := ih hshorter (h.tail rfl).2 (.of_dangling rfl)
      exact ⟨_, prev', .question he hus, hahead⟩
    · obtain ⟨us, prev', hus, hahead⟩ := ih hshorter (h.tail rfl).2 (.of_dangling rfl)
      exact ⟨_, prev', .plus he hus, hahead⟩
  · have hfresh : Fresh prev ts := fun t hhead ht => absurd ⟨t, hhead, ht⟩ hsugar
    obtain ⟨us, prev', hus, hahead⟩ := ih le_rfl h hfresh
    exact ⟨_, prev', .operand he hus, hahead⟩

/-- A group begins where a parenthesis is opened, and the tokens in it and behind it pass the
checks, those behind it if the check gets there. -/
theorem Checked.exists_group (h : Checked prev (.op .openParen :: ts) ahead) :
    ∃ inner rest, ts = inner ++ .op .closeParen :: rest ∧
      Checked (some (.op .openParen)) inner (.op .closeParen :: (rest ++ ahead)) ∧
      ∀ {prev'}, checkFrom prev' false (.op .closeParen :: (rest ++ ahead)) = .ok () →
        Checked (some (.op .closeParen)) rest ahead := by
  obtain ⟨inner, rest, rfl, hinner, hrest⟩ := exists_closing [] .paren h.nests
  have hoperators := h.operators
  rw [List.cons_append, List.append_assoc, List.cons_append] at hoperators
  replace hoperators := (operators_cons hoperators).2
  refine ⟨inner, rest, rfl, ⟨hinner, hoperators, h.classes.mono ?_, fun t ht =>
    h.ne_concat t (by simp [ht])⟩, fun hclose => ⟨hrest, (operators_cons hclose).2,
      h.classes.mono ?_, fun t ht => h.ne_concat t (by simp [ht])⟩⟩
  · exact ⟨[.op .openParen], .op .closeParen :: rest, by simp⟩
  · exact ⟨.op .openParen :: inner ++ [.op .closeParen], [], by simp⟩

/-- A class reaches from the bracket that opens it to the first that closes one. -/
theorem Checked.exists_charClass (h : Checked prev (.op .openBracket :: ts) ahead) :
    ∃ inner rest, ts = inner ++ .op .closeBracket :: rest ∧ HoldsMembers inner ∧
      Checked (some (.op .closeBracket)) rest ahead := by
  obtain ⟨inner', rest', hts, -, -⟩ := exists_closing [] .bracket h.nests
  have hmem : .op .closeBracket ∈ ts := by rw [hts]; simp
  obtain ⟨inner, rest, rfl, hfirst⟩ := List.eq_append_cons_of_mem hmem
  have hinner : HoldsMembers inner := h.classes inner ⟨[], rest, by simp⟩ hfirst
  have hnests : Regex.nests [.openBracket] (inner ++ .op .closeBracket :: rest) = true := h.nests
  rw [hinner.balanced.nests_append] at hnests
  have hoperators := h.operators
  rw [List.cons_append, List.append_assoc, List.cons_append] at hoperators
  replace hoperators := (operators_cons hoperators).2
  have hclosed := (checkFrom_inClass fun t ht => (hinner.ne_bracket ht).2.2.2).symm.trans hoperators
  exact ⟨inner, rest, rfl, hinner, hnests, hclosed,
    h.classes.mono ⟨.op .openBracket :: inner ++ [.op .closeBracket], [], by simp⟩,
    fun t ht => h.ne_concat t (by simp [ht])⟩

/-- **Tokens that pass the checks fall into operands and what stands behind them.** -/
theorem Checked.replaceable (h : Checked prev ts ahead) (hfresh : Fresh prev ts) :
    Replaceable ts ahead := by
  -- What a bracket opens is shorter than what it stands before, and so is what follows it.
  induction hlength : ts.length using Nat.strong_induction_on generalizing prev ts ahead with
  | _ length ih =>
    subst hlength
    cases ts with
    | nil => exact ⟨[], prev, .nil, h.operators⟩
    | cons t ts =>
      have hbehind : ∀ {e e' rest prev'}, Desugars .operand e e' → Checked prev' rest ahead →
          rest.length < (t :: ts).length → Replaceable (e ++ rest) ahead :=
        fun he hrest hlt => hrest.behind_operand he fun hle hts' hfresh' =>
          ih _ (hle.trans_lt hlt) hts' hfresh' rfl
      obtain ⟨hquestion, hplus⟩ := h.ne_sugar hfresh
      cases t with
      | literal c => exact hbehind (.literal c) (h.tail rfl).2 (Nat.lt_succ_self _)
      | op o =>
        cases o with
        | epsilon => exact hbehind .epsilon (h.tail rfl).2 (Nat.lt_succ_self _)
        | openParen =>
          obtain ⟨inner, rest, rfl, hinner, hrest⟩ := h.exists_group
          rw [List.length_cons, List.length_append, List.length_cons] at ih hbehind
          obtain ⟨us, prev', hus, hclose⟩ := ih _ (by omega) hinner (.of_dangling rfl) rfl
          have hgroup := hbehind (.group hus) (hrest hclose) (by omega)
          simpa using hgroup
        | openBracket =>
          obtain ⟨inner, rest, rfl, hinner, hrest⟩ := h.exists_charClass
          rw [List.length_cons, List.length_append, List.length_cons] at hbehind
          have hclass := hbehind (.charClass hinner) hrest (by omega)
          simpa using hclass
        | star =>
          obtain ⟨us, prev', hus, hahead⟩ :=
            ih _ (Nat.lt_succ_self _) (h.tail rfl).2 (.of_dangling rfl) rfl
          exact ⟨_, prev', .star hus, hahead⟩
        | alt =>
          obtain ⟨us, prev', hus, hahead⟩ :=
            ih _ (Nat.lt_succ_self _) (h.tail rfl).2 (.of_dangling rfl) rfl
          exact ⟨_, prev', .alt hus, hahead⟩
        | closeParen | closeBracket => cases h.nests
        | question => exact absurd rfl hquestion
        | plus => exact absurd rfl hplus
        | dash => cases (h.tail rfl).1
        | concat => exact absurd rfl (h.ne_concat _ (.head _))

/-! ## What the pass gives -/

/-- **`?` and `+` are replaced inside out.** Of tokens that pass the checks, whose classes hold
literals, the empty word and dashes alone, the pass gives what replaces them by how brackets group
them. There is nothing else that does so, it holds neither operator, and brackets nest in it. -/
theorem desugar_spec {text : String} (hts : tokenize text = .ok ts)
    (hoperators : checkOperators ts = .ok ()) (hclasses : ClassesHoldMembers ts) :
    ∃ us, desugar ts = .ok us ∧ Desugars .sequence ts us ∧
      (∀ vs, Desugars .sequence ts vs → vs = us) ∧
      (∀ t ∈ us, t ≠ .op .question ∧ t ≠ .op .plus) ∧ nests [] us = true := by
  obtain ⟨hspells, hnests, -⟩ := spells_of_tokenize hts
  have hchecked : Checked none ts [] :=
    ⟨hnests, by rwa [List.append_nil], hclasses, hspells.ne_concat⟩
  obtain ⟨us, -, hus, -⟩ := hchecked.replaceable (.of_dangling rfl)
  have hunique : ∀ vs, Desugars .sequence ts vs → vs = us := fun vs hvs =>
    Except.ok.inj ((desugar_eq hvs).symm.trans (desugar_eq hus))
  have hbalanced : nests [] (us ++ []) = true := hus.nests_append [] []
  rw [List.append_nil] at hbalanced
  exact ⟨us, desugar_eq hus, hus, hunique, hus.ne_sugar, hbalanced⟩

/-- The repeated groups hold optional ones, and the operand of the last operator is all of them. -/
theorem desugar_spec_nested :
    ∃ ts us, tokenize "((a?b)+[x-z]?)+" = .ok ts ∧ checkOperators ts = .ok () ∧
      ClassesHoldMembers ts ∧ desugar ts = .ok us ∧ Desugars .sequence ts us ∧
      nests [] us = true ∧
      render us =
        "(((((a|&)b)((a|&)b)*)([x-z]|&))((((a|&)b)((a|&)b)*)([x-z]|&))*)" := by
  obtain ⟨ts, hts, hoperators, hclasses, hrender⟩ : ∃ ts,
      tokenize "((a?b)+[x-z]?)+" = .ok ts ∧ checkOperators ts = .ok () ∧ ClassesHoldMembers ts ∧
        (desugar ts).map render =
          .ok "(((((a|&)b)((a|&)b)*)([x-z]|&))((((a|&)b)((a|&)b)*)([x-z]|&))*)" :=
    ⟨_, rfl, rfl, by decide, rfl⟩
  obtain ⟨us, hus, hdesugars, -, -, hbalanced⟩ := desugar_spec hts hoperators hclasses
  rw [hus] at hrender
  exact ⟨ts, us, hts, hoperators, hclasses, hus, hdesugars, hbalanced, Except.ok.inj hrender⟩

end Frontend.Regex
