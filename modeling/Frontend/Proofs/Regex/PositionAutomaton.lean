import Frontend.Proofs.Automaton.SetStates
import Frontend.Proofs.FreshNames
import Frontend.Proofs.Regex.PositionWords
import Frontend.Proofs.Text.Digits
import Frontend.Regex.Compile

/-!
# The automaton of an expression

The automaton of an expression has sets of positions as its states. After a word it is in the
set of the positions that can come next after some sequence of positions that spells the word
(`mem_after`). The mark is among them exactly if the sequence is a word of the expression, so
the automaton accepts the language of the expression (`accepts_toAutomaton`).

All of this is about trees whose positions are numbered from 1 with the mark at the end
(`Tree.Numbered`).
-/

namespace Frontend.Regex

open scoped Computability

namespace Expr

/-- The mark at the end of words does not occur. -/
def Plain : Expr → Prop
  | symbol .. | epsilon => True
  | marker _ => False
  | star e => e.Plain
  | concat l r | alt l r => l.Plain ∧ r.Plain

/-- The language of an expression without the mark. -/
def language : Expr → Language Char
  | symbol _ c => {[c]}
  | epsilon | marker _ => 1
  | star e => e.language∗
  | concat l r => l.language * r.language
  | alt l r => l.language + r.language

variable {e : Expr} {p q : Nat}

theorem map_fst_symbols (he : e.Plain) : e.symbols.map Prod.fst = e.positions := by
  induction e with
  | symbol p c => rfl
  | epsilon => rfl
  | marker p => exact he.elim
  | star e ih => exact ih he
  | concat l r ihl ihr => rw [symbols, List.map_append, ihl he.1, ihr he.2, positions]
  | alt l r ihl ihr => rw [symbols, List.map_append, ihl he.1, ihr he.2, positions]

/-- The language is what the words spell. -/
theorem language_eq_map {f : Nat → Char} (he : e.Plain) (hf : ∀ x ∈ e.symbols, f x.1 = x.2) :
    e.language = Language.map f e.words := by
  induction e with
  | symbol p c =>
    have hfp : f p = c := hf (p, c) (List.mem_singleton_self _)
    rw [language, words, Language.map]
    show ({[c]} : Set (List Char)) = List.map f '' {[p]}
    rw [Set.image_singleton, List.map_singleton, hfp]
  | epsilon => rw [language, words, map_one]
  | marker p => exact he.elim
  | star e ih => rw [language, words, Language.map_kstar, ih he hf]
  | concat l r ihl ihr =>
    rw [language, words, map_mul, ihl he.1 fun x hx => hf x (List.mem_append_left _ hx),
      ihr he.2 fun x hx => hf x (List.mem_append_right _ hx)]
  | alt l r ihl ihr =>
    rw [language, words, map_add, ihl he.1 fun x hx => hf x (List.mem_append_left _ hx),
      ihr he.2 fun x hx => hf x (List.mem_append_right _ hx)]

/-- No expression is without words, so one that is not nullable has a first position. -/
theorem nullable_or_exists_first (e : Expr) : e.nullable = true ∨ ∃ p, p ∈ e.first := by
  induction e with
  | symbol p c => exact .inr ⟨p, OrdSet.mem_singleton.2 rfl⟩
  | epsilon => exact .inl rfl
  | marker p => exact .inr ⟨p, OrdSet.mem_singleton.2 rfl⟩
  | star e _ => exact .inl rfl
  | concat l r ihl ihr =>
    rcases ihl with hl | ⟨p, hp⟩
    · rcases ihr with hr | ⟨p, hp⟩
      · exact .inl (nullable_concat.2 ⟨hl, hr⟩)
      · exact .inr ⟨p, mem_first_concat.2 (.inr ⟨hl, hp⟩)⟩
    · exact .inr ⟨p, mem_first_concat.2 (.inl hp)⟩
  | alt l r ihl ihr =>
    rcases ihl with hl | ⟨p, hp⟩
    · exact .inl (nullable_alt.2 (.inl hl))
    · exact .inr ⟨p, mem_first_alt.2 (.inl hp)⟩

/-! ## The table of followers -/

theorem mem_getD_link {ps qs : OrdSet Nat} {t : FollowTable} :
    q ∈ (t.link ps qs).getD p ∅ ↔ q ∈ t.getD p ∅ ∨ p ∈ ps ∧ q ∈ qs := by
  rw [FollowTable.link, OrdSet.mem_def (a := p)]
  induction ps.toList generalizing t with
  | nil => simp
  | cons x ps ih =>
    rw [List.foldl_cons, ih, OrdMap.getD, OrdMap.get?_alter, List.mem_cons]
    by_cases h : p = x
    · subst h
      rw [if_pos rfl, Option.getD_some, OrdSet.mem_union, ← OrdMap.getD]
      tauto
    · rw [if_neg h, ← OrdMap.getD]
      tauto

/-- One pass enters all successions into the table. -/
theorem mem_getD_addFollow {t : FollowTable} :
    q ∈ (e.addFollow t).2.getD p ∅ ↔ q ∈ t.getD p ∅ ∨ e.Follows p q := by
  induction e generalizing t with
  | symbol _ _ => exact (or_iff_left fun h => h).symm
  | epsilon => exact (or_iff_left fun h => h).symm
  | marker _ => exact (or_iff_left fun h => h).symm
  | star e ih => rw [addFollow_star, mem_getD_link, ih, or_assoc, Follows]
  | concat l r ihl ihr =>
    rw [addFollow_concat, mem_getD_link, ihr, ihl, Follows, or_assoc, or_assoc, or_assoc]
  | alt l r ihl ihr =>
    show q ∈ (r.addFollow (l.addFollow t).2).2.getD p ∅ ↔ _
    rw [ihr, ihl, Follows, or_assoc]

end Expr

namespace Tree

variable {t : Tree} {token : String} {p q : Nat} {c : Char} {w : List Char}

theorem mem_follow : q ∈ t.follow.getD p ∅ ↔ t.root.Follows p q := by
  rw [follow, Expr.mem_getD_addFollow, or_iff_right]
  exact OrdSet.not_mem_empty

/-- The positions are counted from 1, and the mark has the one after the last. -/
structure Numbered (t : Tree) : Prop where
  plain : t.body.Plain
  positions : t.body.positions ++ [t.markerPosition] = List.range' 1 t.markerPosition

namespace Numbered

variable (ht : t.Numbered)

include ht

theorem positions_root : t.root.positions = List.range' 1 t.markerPosition := ht.positions

theorem nodup_root : t.root.positions.Nodup := by
  rw [ht.positions_root]
  exact List.nodup_range'

theorem get?_symbolAt : t.symbolAt.get? p = some c ↔ (p, c) ∈ t.body.symbols := by
  have hnodup : (t.body.symbols.map Prod.fst).Nodup := by
    rw [Expr.map_fst_symbols ht.plain]
    exact (List.nodup_append.1 ht.nodup_root).1
  refine ⟨OrdMap.mem_of_get?_ofList, fun h => OrdMap.get?_ofList_eq h fun c' h' => ?_⟩
  exact congrArg Prod.snd (List.inj_on_of_nodup_map hnodup h' h rfl)

end Numbered

/-! ## Names of sets of positions -/

theorem setName_injective : Function.Injective setName := by
  intro ps qs h
  have hdot : ∀ ps : OrdSet Nat, ∀ s ∈ ps.toList.map toString, '.' ∉ s.toList := by
    intro ps s hs hdot
    obtain ⟨p, -, rfl⟩ := List.mem_map.1 hs
    exact absurd (Text.isDigit_of_mem_toString hdot) (by decide)
  -- The empty set and a set of one empty name would be written alike, but no name is empty.
  have hsplit := splits_eq_of_intercalate_eq (hdot ps) (hdot qs) h
  have hempty : ∀ ps : OrdSet Nat, ps.toList.map toString ≠ [""] := by
    intro ps hps
    obtain ⟨p, -, hp⟩ := List.map_eq_singleton_iff.1 hps
    exact Nat.repr_ne_empty hp
  refine OrdSet.toList_inj.1 (List.map_injective_iff.2 (fun _ _ => Nat.repr_injective) ?_)
  split at hsplit
  · next hps =>
    split at hsplit
    · next hqs => exact hps.trans hqs.symm
    · exact absurd hsplit.symm (hempty qs)
  · split at hsplit
    · exact absurd hsplit (hempty ps)
    · exact hsplit

/-! ## The sets of positions -/

/-- The sets of positions that can come next, with what they recognise. -/
def positionSystem (t : Tree) (token : String) : SetSystem Nat where
  alphabet := t.alphabet
  start := t.root.first
  next := next t.follow t.symbolAt
  isFinal := fun ps => decide (t.markerPosition ∈ ps)
  token? := fun _ => some token
  sets := t.positionSets
  name := setName

/-- The automaton of an expression is that of its sets of positions. -/
theorem toAutomaton_eq : t.toAutomaton token = (t.positionSystem token).automaton := by
  have htokens : ∀ sets : List (OrdSet Nat), (sets.map setName).map (fun s => (s, token)) =
      sets.filterMap fun s => (some token).map fun t => (setName s, t) := by
    intro sets
    rw [List.map_map, ← List.filterMap_eq_map]
    rfl
  rw [toAutomaton, SetSystem.automaton, SetSystem.finals, SetSystem.moves, positionSystem]
  dsimp only
  rw [htokens]

theorem mem_next {here : OrdSet Nat} :
    q ∈ next t.follow t.symbolAt here c ↔
      ∃ p ∈ here, t.symbolAt.get? p = some c ∧ t.root.Follows p q := by
  rw [next, OrdSet.mem_unions]
  constructor
  · intro h
    obtain ⟨p, hp, hq⟩ := h
    obtain ⟨hp, hc⟩ := List.mem_filter.1 hp
    exact ⟨p, hp, eq_of_beq hc, mem_follow.1 hq⟩
  · intro h
    obtain ⟨p, hp, hc, hq⟩ := h
    exact ⟨p, List.mem_filter.2 ⟨hp, by rw [hc]; exact beq_self_eq_true _⟩, mem_follow.2 hq⟩

/-- The sets of positions that can come next after one more character. -/
def nextSets (t : Tree) (here : OrdSet Nat) : List (OrdSet Nat) :=
  (t.alphabet.toList.map (next t.follow t.symbolAt here)).filter fun ps => !ps.isEmpty

theorem mem_positions_of_reachable {ps : OrdSet Nat}
    (h : Reachable t.nextSets [t.root.first] ps) : ∀ p ∈ ps, p ∈ t.root.positions := by
  refine h.induction (p := fun ps => ∀ p ∈ ps, p ∈ t.root.positions) ?_ ?_
  · intro ps hps p hp
    rw [List.mem_singleton.1 hps] at hp
    exact Expr.mem_positions_of_mem_first hp
  · intro ps qs _ hqs q hq
    obtain ⟨c, -, rfl⟩ := List.mem_map.1 (List.mem_filter.1 hqs).1
    obtain ⟨p, -, -, hpq⟩ := mem_next.1 hq
    exact hpq.mem_positions.2

/-- There are no more sets to find than there are sets of positions. -/
theorem atMost_positionSets (ht : t.Numbered) :
    AtMost (subsetCount t.markerPosition) (Reachable t.nextSets [t.root.first]) := by
  have hpositions : t.root.positions.length = t.markerPosition := by
    rw [ht.positions_root, List.length_range']
  rw [← hpositions]
  exact atMost_subsets t.root.positions fun _ => mem_positions_of_reachable

theorem mem_positionSets (ht : t.Numbered) {ps : OrdSet Nat} :
    ps ∈ t.positionSets ↔ Reachable t.nextSets [t.root.first] ps :=
  mem_explore (atMost_positionSets ht)

/-- The worklist of sets comes to its end. -/
theorem finishes_positionSets (ht : t.Numbered) :
    Finishes t.nextSets [] [t.root.first] t.positionSets :=
  finishes_explore (atMost_positionSets ht)

theorem mem_alphabet (h : t.symbolAt.get? p = some c) : c ∈ t.alphabet := by
  rw [alphabet, OrdSet.mem_ofList, OrdMap.values]
  exact List.mem_map.2 ⟨(p, c), OrdMap.mem_toList_iff.2 h, rfl⟩

theorem proper_positionSystem (ht : t.Numbered) : (t.positionSystem token).Proper where
  start_mem := (mem_positionSets ht).2 (.of_mem (List.mem_singleton_self _))
  start_nonempty := by
    have hroot : ¬ t.root.nullable = true := by
      rw [root, Expr.nullable_concat]
      intro h
      obtain ⟨-, h⟩ := h
      cases h
    exact t.root.nullable_or_exists_first.resolve_left hroot
  next_mem := by
    intro here hhere c h
    obtain ⟨q, hq⟩ := h
    obtain ⟨p, -, hc, -⟩ := mem_next.1 hq
    refine (mem_positionSets ht).2 (((mem_positionSets ht).1 hhere).step ?_)
    refine List.mem_filter.2 ⟨List.mem_map_of_mem (mem_alphabet hc), ?_⟩
    rw [Bool.not_eq_true']
    exact OrdSet.isEmpty_eq_false_iff.2 ⟨q, hq⟩
  mem_alphabet := by
    intro here c h
    obtain ⟨q, hq⟩ := h
    obtain ⟨p, -, hc, -⟩ := mem_next.1 hq
    exact mem_alphabet hc
  name_inj := fun ps _ qs _ h => setName_injective h
  next_empty := by
    intro c q hq
    obtain ⟨p, hp, -⟩ := mem_next.1 hq
    exact OrdSet.not_mem_empty hp
  isFinal_empty := rfl

/-! ## Words -/

/-- After a word come the positions that can follow a sequence that spells it. -/
theorem mem_after :
    q ∈ (t.positionSystem token).after w ↔
      ∃ u, u.map t.symbolAt.get? = w.map some ∧ (u ++ [q]).IsChain t.root.Follows ∧
        ∀ p ∈ (u ++ [q]).head?, p ∈ t.root.first := by
  induction w using List.reverseRecOn generalizing q with
  | nil =>
    constructor
    · intro h
      refine ⟨[], rfl, .singleton q, fun p hp => ?_⟩
      rwa [← Option.some.inj hp]
    · intro h
      obtain ⟨u, hu, -, hhead⟩ := h
      obtain rfl := List.map_eq_nil_iff.1 hu
      exact hhead q rfl
  | append_singleton w c ih =>
    -- The last position read is the one that `q` follows.
    have hafter : (t.positionSystem token).after (w ++ [c]) =
        next t.follow t.symbolAt ((t.positionSystem token).after w) c := List.foldl_concat ..
    rw [hafter, mem_next]
    constructor
    · intro h
      obtain ⟨p, hp, hc, hpq⟩ := h
      obtain ⟨u, hu, hchain, hhead⟩ := ih.1 hp
      refine ⟨u ++ [p], ?_, ?_, ?_⟩
      · rw [List.map_append, hu, List.map_singleton, hc, List.map_append]
        rfl
      · refine List.isChain_append.2 ⟨hchain, .singleton q, fun p' hp' q' hq' => ?_⟩
        rw [List.getLast?_concat] at hp'
        rwa [← Option.some.inj hp', ← Option.some.inj hq']
      · rwa [List.head?_append_of_ne_nil _ (by simp)]
    · intro h
      obtain ⟨u, hu, hchain, hhead⟩ := h
      rw [List.map_append, List.map_eq_append_iff] at hu
      obtain ⟨u, last, rfl, hu, hlast⟩ := hu
      obtain ⟨p, rfl, hc⟩ := List.map_eq_singleton_iff.1 hlast
      obtain ⟨hchain, -, hpq⟩ := List.isChain_append.1 hchain
      refine ⟨p, ih.2 ⟨u, hu, hchain, ?_⟩, hc, hpq p List.getLast?_concat q rfl⟩
      rwa [List.head?_append_of_ne_nil _ (by simp)] at hhead

/-- Only the mark ends a word of the root. -/
theorem mem_last_root : p ∈ t.root.last ↔ p = t.markerPosition := by
  have hmark : p ∈ (Expr.marker t.markerPosition).last ↔ p = t.markerPosition :=
    OrdSet.mem_singleton
  rw [root, Expr.mem_last_concat, hmark, or_iff_left]
  intro h
  obtain ⟨h, -⟩ := h
  cases h

/-- The mark comes next exactly after the words of the expression. -/
theorem marker_mem_after (ht : t.Numbered) :
    t.markerPosition ∈ (t.positionSystem token).after w ↔
      ∃ u ∈ t.body.words, u.map t.symbolAt.get? = w.map some := by
  -- Words of the body are those before a mark.
  have hfits : ∀ u, ((u ++ [t.markerPosition]).IsChain t.root.Follows ∧
      ∀ p ∈ (u ++ [t.markerPosition]).head?, p ∈ t.root.first) ↔ u ∈ t.body.words := by
    intro u
    constructor
    · intro h
      obtain ⟨hchain, hhead⟩ := h
      have hroot : t.root.Fits (u ++ [t.markerPosition]) := by
        refine ⟨fun h => absurd h (by simp), hhead, hchain, fun p hp => mem_last_root.2 ?_⟩
        rw [List.getLast?_concat] at hp
        exact (Option.some.inj hp).symm
      obtain ⟨v, hv, w, hw, heq⟩ :=
        Language.mem_mul.1 ((Expr.mem_words_iff ht.nodup_root).2 hroot)
      obtain rfl : w = [t.markerPosition] := hw
      rwa [← List.append_cancel_right heq]
    · intro hu
      have hroot : t.root.Fits (u ++ [t.markerPosition]) :=
        (Expr.mem_words_iff ht.nodup_root).1 (Language.append_mem_mul hu rfl)
      exact ⟨hroot.chain, hroot.head⟩
  rw [mem_after]
  exact exists_congr fun u => by rw [hfits, and_comm]

theorem isFinal_after (ht : t.Numbered) :
    (t.positionSystem token).isFinal ((t.positionSystem token).after w) = true ↔
      w ∈ t.body.language := by
  have hfinal : ∀ ps, (t.positionSystem token).isFinal ps = true ↔ t.markerPosition ∈ ps :=
    fun ps => decide_eq_true_iff
  rw [hfinal, marker_mem_after ht]
  -- Where there is a symbol, the choice of another one for the other positions does not matter.
  let f : Nat → Char := fun p => (t.symbolAt.get? p).getD 'x'
  have hsymbol : ∀ x ∈ t.body.symbols, t.symbolAt.get? x.1 = some x.2 :=
    fun x hx => ht.get?_symbolAt.2 hx
  have hf : ∀ x ∈ t.body.symbols, f x.1 = x.2 := by
    intro x hx
    show (t.symbolAt.get? x.1).getD 'x' = x.2
    rw [hsymbol x hx, Option.getD_some]
  have hmap : ∀ u ∈ t.body.words, u.map t.symbolAt.get? = (u.map f).map some := by
    intro u hu
    rw [List.map_map]
    refine List.map_congr_left fun p hp => ?_
    have hmem := (Expr.fits_of_mem_words hu).mem_positions p hp
    rw [← Expr.map_fst_symbols ht.plain, List.mem_map] at hmem
    obtain ⟨x, hx, rfl⟩ := hmem
    rw [hsymbol x hx, Function.comp_apply, hf x hx]
  rw [Expr.language_eq_map ht.plain hf]
  constructor
  · intro h
    obtain ⟨u, hu, heq⟩ := h
    rw [hmap u hu] at heq
    exact ⟨u, hu, List.map_injective_iff.2 (Option.some_injective _) heq⟩
  · intro h
    obtain ⟨u, hu, rfl⟩ := h
    exact ⟨u, hu, hmap u hu⟩

/-! ## Verdicts -/

theorem wellFormed_toAutomaton (ht : t.Numbered) : (t.toAutomaton token).WellFormed := by
  rw [toAutomaton_eq]
  exact SetSystem.wellFormed_automaton (proper_positionSystem ht)

theorem isDeterministic_toAutomaton (ht : t.Numbered) :
    (t.toAutomaton token).isDeterministic = true := by
  rw [toAutomaton_eq]
  exact SetSystem.isDeterministic_automaton (proper_positionSystem ht)

/-- **The automaton accepts the language of the expression.** -/
theorem accepts_toAutomaton (ht : t.Numbered) {word : String} :
    (t.toAutomaton token).accepts word = true ↔ word.toList ∈ t.body.language := by
  rw [toAutomaton_eq, SetSystem.accepts_automaton (proper_positionSystem ht), isFinal_after ht]

/-- An accepted word has the token of the automaton. -/
theorem token_toAutomaton (ht : t.Numbered) {word : String}
    (h : (t.toAutomaton token).accepts word = true) :
    ((t.toAutomaton token).run word).token = some token := by
  rw [accepts_toAutomaton ht] at h
  rw [toAutomaton_eq, SetSystem.token_automaton (proper_positionSystem ht) ((isFinal_after ht).2 h)]
  rfl

/-- The words that are accepted are recognised as the token and as nothing else. -/
theorem recognizes_toAutomaton {word token' : String} :
    (t.toAutomaton token).Recognizes word.toList token' ↔
      (t.toAutomaton token).accepts word = true ∧ token' = token := by
  have htokens : ∀ s, s ∈ (t.toAutomaton token).finals →
      (t.toAutomaton token).tokens.get? s = some token := by
    intro s hs
    refine OrdMap.get?_ofList_eq ?_ fun token' h => ?_
    · exact List.mem_map.2 ⟨s, OrdSet.mem_ofList.1 hs, rfl⟩
    · obtain ⟨s', -, heq⟩ := List.mem_map.1 h
      exact (Prod.mk.inj heq).2.symm
  rw [Automaton.accepts_iff]
  constructor
  · intro h
    obtain ⟨s, hs, hpath, htoken⟩ := h
    rw [htokens s hs] at htoken
    exact ⟨⟨s, hs, hpath⟩, (Option.some.inj htoken).symm⟩
  · intro h
    obtain ⟨⟨s, hs, hpath⟩, rfl⟩ := h
    exact ⟨s, hs, hpath, htokens s hs⟩

end Tree

end Frontend.Regex
