import Frontend.Proofs.Regex.Brackets
import Frontend.Proofs.Regex.Compilation

/-!
# The patterns are what compiles

Whatever can be read as a pattern passes the checks on its brackets (`Reads.balanced`) and on
its operators (`Reads.checkFrom_append`), and the passes behind the checks do not fail on a pattern.
With the converse, that all that compiles can be read, the texts that compile are those of the
grammar of patterns. Behind the checks nothing but a class that cannot be read makes a text fail
(`compile_spec`).
-/

namespace Frontend.Regex

variable {lvl : Level} {text : String} {ts rest inner : List Token} {p : Pattern} {t : Token}
  {o : Op} {prev : Option Token}

/-! ## Brackets nest in a pattern -/

theorem HoldsMembers.isBracket (h : HoldsMembers inner) (ht : t ∈ inner) :
    t.isBracket = false := by
  rcases h t ht with ⟨c, rfl⟩ | rfl | rfl
  · rfl
  · rfl
  · rfl

theorem HoldsMembers.balanced (h : HoldsMembers inner) : Balanced inner :=
  .of_forall fun _ => h.isBracket

/-- **Brackets nest in a part of a pattern.** -/
theorem Reads.balanced (h : Reads lvl ts p) : Balanced ts := by
  induction h with
  | char | epsilon => exact .token rfl .nil
  | group _ ih => exact .group .paren ih .nil
  | charClass h => exact .group .bracket (HoldsMembers.balanced h.members) .nil
  | ofAtom _ ih | ofSuffixed _ ih | ofConcat _ ih => exact ih
  | star _ ih | plus _ ih | optional _ ih => exact ih.append (.token rfl .nil)
  | concat _ _ ih ih' => exact ih.append ih'
  | alt _ _ ih ih' => exact ih.append (.token rfl ih')

/-! ## Operators have their operands in a pattern -/

/-- A token without a fault is passed over. -/
theorem checkFrom_cons (hfault : sequenceFault? prev t = none) :
    checkFrom prev false (t :: rest) = checkFrom (some t) (t == .op .openBracket) rest := by
  rw [checkFrom, if_neg Bool.false_ne_true, hfault]

/-- A group can be closed where a bar could stand. -/
theorem sequenceFault?_closeParen (h : isDangling prev .alt = false) :
    sequenceFault? prev (.op .closeParen) = none := by
  cases prev with
  | none => cases h
  | some t =>
    cases t with
    | literal c => rfl
    | op o =>
      cases o with
      | openParen | alt => cases h
      | _ => rfl

/-- A bar can stand behind a part of a pattern, and a postfix operator behind an atom. -/
theorem Reads.isDangling_getLast? (h : Reads lvl ts p) :
    isDangling ts.getLast? .alt = false ∧
      (lvl = .atom → isDangling ts.getLast? .star = false) := by
  induction h with
  | char | epsilon => exact ⟨rfl, fun _ => rfl⟩
  | group | charClass =>
    rw [List.getLast?_concat]
    exact ⟨rfl, fun _ => rfl⟩
  | ofAtom _ ih | ofSuffixed _ ih | ofConcat _ ih => exact ⟨ih.1, nofun⟩
  | star | plus | optional =>
    rw [List.getLast?_concat]
    exact ⟨rfl, nofun⟩
  | concat _ h' _ ih' =>
    rw [List.getLast?_append_of_ne_nil _ h'.ne_nil]
    exact ⟨ih'.1, nofun⟩
  | alt _ h' _ ih' =>
    rw [List.append_cons, List.getLast?_append_of_ne_nil _ h'.ne_nil]
    exact ⟨ih'.1, nofun⟩

/-- A postfix operator can stand behind an atom. -/
theorem Reads.sequenceFault?_postfix (h : Reads .atom ts p) (ho : o.isPostfix = true) :
    sequenceFault? ts.getLast? (.op o) = none := by
  have hsame : isDangling ts.getLast? o = isDangling ts.getLast? .star := isDangling_congr ho
  exact (sequenceFault?_eq_none_iff (.inl ho)).2 (hsame.trans (h.isDangling_getLast?.2 rfl))

/-- Inside a class, tokens are passed over as far as the end of the class. -/
theorem checkFrom_inClass (h : ∀ t ∈ inner, t ≠ .op .closeBracket) :
    checkFrom prev true (inner ++ .op .closeBracket :: rest) =
      checkFrom (some (.op .closeBracket)) false rest := by
  induction inner generalizing prev with
  | nil => rfl
  | cons t inner ih =>
    obtain ⟨ht, hinner⟩ := List.forall_mem_cons.1 h
    rw [List.cons_append, checkFrom, if_pos rfl, bne_iff_ne.2 ht, ih hinner]

/-- **The check passes over a part of a pattern**, whatever comes before it. -/
theorem Reads.checkFrom_append (h : Reads lvl ts p) (prev : Option Token) (rest : List Token) :
    checkFrom prev false (ts ++ rest) = checkFrom ts.getLast? false rest := by
  induction h generalizing prev rest with
  | char | epsilon => exact checkFrom_cons rfl
  | @group ts _ h ih =>
    have hclose := sequenceFault?_closeParen h.isDangling_getLast?.1
    rw [List.getLast?_concat, List.append_assoc, List.cons_append, checkFrom_cons rfl]
    exact (ih _ _).trans (checkFrom_cons hclose)
  | @charClass inner h =>
    have hinner : ∀ t ∈ inner, t ≠ .op .closeBracket := fun _ ht => (h.ne_bracket ht).2.2.2
    rw [List.getLast?_concat, List.append_assoc, List.cons_append, checkFrom_cons rfl]
    exact checkFrom_inClass hinner
  | ofAtom _ ih | ofSuffixed _ ih | ofConcat _ ih => exact ih prev rest
  | star h ih | plus h ih | optional h ih =>
    rw [List.getLast?_concat, List.append_assoc, ih]
    exact checkFrom_cons (h.sequenceFault?_postfix rfl)
  | concat _ h' ih ih' =>
    rw [List.getLast?_append_of_ne_nil _ h'.ne_nil, List.append_assoc, ih, ih']
  | alt h h' ih ih' =>
    have hbar := (sequenceFault?_eq_none_iff (.inr rfl)).2 h.isDangling_getLast?.1
    rw [List.append_cons, List.getLast?_append_of_ne_nil _ h'.ne_nil, ← List.append_cons,
      List.append_assoc, ih, List.cons_append, checkFrom_cons hbar]
    exact ih' _ _

/-- A pattern passes the checks. -/
theorem Reads.checks (h : Reads .alt ts p) : nests [] ts = true ∧ checkOperators ts = .ok () := by
  have hoperators := h.checkFrom_append none []
  rw [List.append_nil] at hoperators
  refine ⟨nests_iff_balanced.2 h.balanced, ?_⟩
  have hend : (ts.getLast? == some (.op .alt)) = false := by
    rw [beq_eq_false_iff_ne]
    intro hlast
    have hbar := h.isDangling_getLast?.1
    rw [hlast] at hbar
    cases hbar
  rw [checkOperators, hoperators, checkFrom, hend]
  rfl

/-! ## What compiles -/

/-- What is spelled as a pattern has the tokens of the pattern. -/
theorem tokenize_of_reads (hspells : Spells (text.toList.filter fun c => !Text.isBlank c) ts)
    (h : Reads .alt ts p) : tokenize text = .ok ts :=
  tokenize_of_spells hspells h.checks.1 h.ne_nil

/-- **A text that is read as a pattern compiles.** -/
theorem exists_compile (h : ReadsText text p) : ∃ t, compile text = .ok t := by
  obtain ⟨ts, hspells, hreads⟩ := h
  obtain ⟨us, vs, t, hus, hvs, htree, -, -⟩ := hreads.exists_tree
  refine ⟨t, bind_eq_ok.2 ⟨ts, tokenize_of_reads hspells hreads, ?_⟩⟩
  refine bind_eq_ok.2 ⟨(), hreads.checks.2, bind_eq_ok.2 ⟨us, hus, ?_⟩⟩
  exact bind_eq_ok.2 ⟨vs, hvs, htree⟩

/-- Tokens that pass the checks and whose classes can be read are a pattern. -/
theorem exists_reads_of_checks (hts : tokenize text = .ok ts)
    (hoperators : checkOperators ts = .ok ()) (hclasses : ∃ vs, expandClasses ts = .ok vs) :
    ∃ p, Reads .alt ts p := by
  obtain ⟨hspells, hnests, hne⟩ := spells_of_tokenize hts
  exact exists_reads ⟨hnests, hoperators, exists_expandFrom_iff.1 hclasses, hspells.ne_concat⟩ hne

/-- **The texts that compile are those that are read as patterns.** Behind the checks on brackets
and operators, `?` and `+` are always replaced; the classes can be read then exactly if they could
be read before; and if they can, there is an expression in the end. -/
theorem compile_spec (text : String) :
    ((∃ t, compile text = .ok t) ↔ ∃ p, ReadsText text p) ∧
      ∀ ts, tokenize text = .ok ts → checkOperators ts = .ok () →
        ∃ us, desugar ts = .ok us ∧
          ((∃ vs, expandClasses us = .ok vs) ↔ ∃ vs, expandClasses ts = .ok vs) ∧
          ∀ vs, expandClasses us = .ok vs →
            ∃ t, Tree.ofPostfix (toPostfix (insertConcat vs)) = .ok t := by
  refine ⟨⟨fun ⟨t, ht⟩ => exists_readsText ht, fun ⟨p, hp⟩ => exists_compile hp⟩, ?_⟩
  intro ts hts hoperators
  obtain ⟨hspells, hnests, -⟩ := spells_of_tokenize hts
  obtain ⟨us, hus⟩ := exists_desugar hnests hoperators hspells.ne_concat
  have hbefore : (∃ vs, expandClasses us = .ok vs) → ∃ vs, expandClasses ts = .ok vs :=
    fun h => exists_expandFrom_iff.2 (scanClasses_of_desugarFrom hus (exists_expandFrom_iff.1 h))
  have hafter : (∃ vs, expandClasses ts = .ok vs) → ∃ vs t, expandClasses us = .ok vs ∧
      Tree.ofPostfix (toPostfix (insertConcat vs)) = .ok t := by
    intro h
    obtain ⟨p, hp⟩ := exists_reads_of_checks hts hoperators h
    obtain ⟨us', vs, t, hus', hvs, htree, -, -⟩ := hp.exists_tree
    obtain rfl := Except.ok.inj (hus.symm.trans hus')
    exact ⟨vs, t, hvs, htree⟩
  refine ⟨us, hus, ⟨hbefore, fun h => ?_⟩, fun vs hvs => ?_⟩
  · obtain ⟨vs, -, hvs, -⟩ := hafter h
    exact ⟨vs, hvs⟩
  · obtain ⟨vs', t, hvs', htree⟩ := hafter (hbefore ⟨vs, hvs⟩)
    obtain rfl := Except.ok.inj (hvs.symm.trans hvs')
    exact ⟨t, htree⟩

/-- In the first text the class is repeated and can be read. The second passes the checks and its
operand is found, but a class in a class cannot be read, so it is no pattern. -/
theorem compile_spec_classes :
    (∃ ts us vs t, tokenize "(a|[0-9])+" = .ok ts ∧ checkOperators ts = .ok () ∧
      desugar ts = .ok us ∧ expandClasses us = .ok vs ∧
        Tree.ofPostfix (toPostfix (insertConcat vs)) = .ok t) ∧
      ∃ ts us, tokenize "[[a]]?" = .ok ts ∧ checkOperators ts = .ok () ∧ desugar ts = .ok us ∧
        (¬ ∃ vs, expandClasses us = .ok vs) ∧ ¬ ∃ p, ReadsText "[[a]]?" p := by
  constructor
  · obtain ⟨ts, hts, hoperators, hclasses⟩ : ∃ ts, tokenize "(a|[0-9])+" = .ok ts ∧
        checkOperators ts = .ok () ∧ ∃ vs, expandClasses ts = .ok vs := ⟨_, rfl, rfl, _, rfl⟩
    obtain ⟨us, hus, hiff, hexpression⟩ := (compile_spec _).2 ts hts hoperators
    obtain ⟨vs, hvs⟩ := hiff.2 hclasses
    obtain ⟨t, ht⟩ := hexpression vs hvs
    exact ⟨ts, us, vs, t, hts, hoperators, hus, hvs, ht⟩
  · have hfails : ¬ ∃ t, compile "[[a]]?" = .ok t := fun ⟨_, ht⟩ => nomatch ht
    obtain ⟨ts, hts, hoperators⟩ : ∃ ts, tokenize "[[a]]?" = .ok ts ∧
        checkOperators ts = .ok () := ⟨_, rfl, rfl⟩
    have hclasses : ¬ ∃ vs, expandClasses ts = .ok vs := by
      intro h
      obtain ⟨p, hp⟩ := exists_reads_of_checks hts hoperators h
      exact hfails (exists_compile ⟨ts, (spells_of_tokenize hts).1, hp⟩)
    obtain ⟨hreads, hpasses⟩ := compile_spec "[[a]]?"
    obtain ⟨us, hus, hiff, -⟩ := hpasses ts hts hoperators
    exact ⟨ts, us, hts, hoperators, hus, hclasses ∘ hiff.1, hfails ∘ hreads.2⟩

end Frontend.Regex
