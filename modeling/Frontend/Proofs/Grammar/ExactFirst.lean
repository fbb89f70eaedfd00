import Frontend.Proofs.Grammar.FirstFollow
import Frontend.Proofs.Grammar.Reading

/-!
# First sets are exact

The first set of a string of symbols holds a terminal exactly if the string derives one that
begins with it, and the mark of the empty word exactly if it derives the empty string
(`mem_ofSequence_iff`, `mem_firstSets_iff`).

That nothing else is in the sets is kept by every round (`FirstsSound`). That nothing is missing
is seen by going through a derivation from its end: a step replaces a head by a body, and the
first set of a body is part of that of its head, so what the string after the step can begin with
is in the first set of the string before it (`mem_ofSequence_of_step`). Neither asks whether the
nonterminals derive words of terminals.
-/

namespace Frontend

namespace SymbolSets

variable {first : SymbolSets} {s : String} {ss : List String}

/-! ## First sets of strings in two parts -/

/-- The first set of a string is that of its first symbol without the mark of the empty word,
and that of the rest besides if the mark is there. -/
theorem mem_ofSequence_cons (hs : s ≠ emptySymbol) (x : String) (rest : List String) :
    x ∈ first.ofSequence (s :: rest) ↔
      x ≠ emptySymbol ∧ x ∈ first.ofSequence [s] ∨
        emptySymbol ∈ first.ofSequence [s] ∧ x ∈ first.ofSequence rest := by
  simp only [ofSequence]
  cases first.get? s with
  | none =>
    simp only [OrdSet.mem_singleton]
    grind
  | some set =>
    dsimp only
    by_cases hempty : emptySymbol ∈ set
    · simp only [if_pos hempty, OrdSet.mem_union, OrdSet.mem_filter, OrdSet.mem_singleton]
      grind
    · simp only [if_neg hempty]
      grind

theorem mem_ofSequence_append (hss : emptySymbol ∉ ss) (x : String) (ts : List String) :
    x ∈ first.ofSequence (ss ++ ts) ↔
      x ≠ emptySymbol ∧ x ∈ first.ofSequence ss ∨
        emptySymbol ∈ first.ofSequence ss ∧ x ∈ first.ofSequence ts := by
  induction ss generalizing x with
  | nil => simp [ofSequence, OrdSet.mem_singleton]
  | cons s ss ih =>
    rw [List.mem_cons, not_or] at hss
    have hs := Ne.symm hss.1
    rw [List.cons_append, mem_ofSequence_cons hs x (ss ++ ts), mem_ofSequence_cons hs x ss,
      mem_ofSequence_cons hs emptySymbol ss, ih hss.2]
    grind

/-- The first set of a symbol by itself is the set of that symbol. -/
theorem mem_ofSequence_singleton {set : OrdSet String} {x : String}
    (h : first.get? s = some set) : x ∈ first.ofSequence [s] ↔ x ∈ set := by
  simp only [ofSequence, h]
  split
  · rw [OrdSet.mem_union, OrdSet.mem_filter, OrdSet.mem_singleton]
    grind
  · exact Iff.rfl

end SymbolSets

namespace Grammar

open SymbolSets

variable {g : Grammar} {s t x : String} {ss ts : List String}

/-! ## Nothing else is in the sets -/

/-- A symbol of the grammar. -/
def IsSymbol (g : Grammar) (s : String) : Prop :=
  g.isNonterminal s = true ∨ g.isTerminal s = true

theorem isSymbol_of_mem_body {p : Production} (hp : p ∈ g.productions) (hs : s ∈ p.body) :
    g.IsSymbol s := by
  cases hn : g.isNonterminal s with
  | true => exact .inl hn
  | false => exact .inr (isTerminal_of_mem_body hp hs hn)

theorem IsSymbol.ne_emptySymbol (hg : g.Proper) (h : g.IsSymbol s) : s ≠ emptySymbol := by
  rintro rfl
  rcases h with h | h
  · rw [hg.emptySymbol_not_head] at h
    cases h
  · exact hg.not_isTerminal_emptySymbol h

/-- The string derives one that begins with the terminal `x`; or `x` is the mark of the empty
word, and the string derives the empty one. -/
def Begins (g : Grammar) (ss : List String) (x : String) : Prop :=
  (x = emptySymbol ∧ g.Derives ss []) ∨
    (g.isTerminal x = true ∧ ∃ rest, g.Derives ss (x :: rest))

namespace Begins

theorem of_derives (hderives : g.Derives ss ts) (h : g.Begins ts x) : g.Begins ss x := by
  rcases h with ⟨rfl, h⟩ | ⟨hx, rest, h⟩
  · exact .inl ⟨rfl, hderives.trans h⟩
  · exact .inr ⟨hx, rest, hderives.trans h⟩

theorem append (h : g.Begins ss x) (hx : x ≠ emptySymbol) (rest : List String) :
    g.Begins (ss ++ rest) x := by
  rcases h with ⟨heq, -⟩ | ⟨hx, more, h⟩
  · exact absurd heq hx
  · exact .inr ⟨hx, more ++ rest, h.append_right rest⟩

theorem emptySymbol_iff (hg : g.Proper) : g.Begins ss emptySymbol ↔ g.Derives ss [] := by
  constructor
  · intro h
    rcases h with ⟨-, h⟩ | ⟨h, -⟩
    · exact h
    · exact absurd h hg.not_isTerminal_emptySymbol
  · exact fun h => .inl ⟨rfl, h⟩

theorem terminal_iff (hg : g.Proper) (ht : g.isTerminal t = true) :
    g.Begins ss t ↔ ∃ rest, g.Derives ss (t :: rest) := by
  constructor
  · intro h
    rcases h with ⟨rfl, -⟩ | ⟨-, h⟩
    · exact absurd ht hg.not_isTerminal_emptySymbol
    · exact h
  · exact fun h => .inr ⟨ht, h⟩

end Begins

/-- Every nonterminal has a set, and the sets hold nothing but what the symbols begin with. -/
structure FirstsSound (g : Grammar) (first : SymbolSets) : Prop where
  within : Within g.nonterminals g.firstRange g.initialFirst first
  begins : ∀ s set, first.get? s = some set → ∀ x, x ∈ set → g.Begins [s] x

namespace FirstsSound

variable {first : SymbolSets}

theorem begins_singleton (h : FirstsSound g first) (hs : g.IsSymbol s)
    (hx : x ∈ first.ofSequence [s]) : g.Begins [s] x := by
  cases hset : first.get? s with
  | some set => exact h.begins s set hset x ((mem_ofSequence_singleton hset).1 hx)
  | none =>
    -- A nonterminal has a set, so this is a terminal, which stands for itself.
    rw [ofSequence, hset, OrdSet.mem_singleton] at hx
    subst hx
    rcases hs with hs | hs
    · obtain ⟨set, hsome, -⟩ := h.within.key x (isNonterminal_iff.1 hs)
      rw [hset] at hsome
      cases hsome
    · exact .inr ⟨hs, [], .refl⟩

theorem begins_of_mem (hg : g.Proper) (h : FirstsSound g first) (hss : ∀ s ∈ ss, g.IsSymbol s)
    (hx : x ∈ first.ofSequence ss) : g.Begins ss x := by
  induction ss with
  | nil =>
    rw [ofSequence, OrdSet.mem_singleton] at hx
    exact .inl ⟨hx, .refl⟩
  | cons s ss ih =>
    obtain ⟨hs, hss⟩ := List.forall_mem_cons.1 hss
    rcases (mem_ofSequence_cons (hs.ne_emptySymbol hg) x ss).1 hx with ⟨hne, hx⟩ | ⟨hempty, hx⟩
    · exact (h.begins_singleton hs hx).append hne ss
    · -- The first symbol derives nothing, so the rest is left.
      have hnothing := (Begins.emptySymbol_iff hg).1 (h.begins_singleton hs hempty)
      exact (ih hss hx).of_derives (hnothing.append_right ss)

theorem initial : FirstsSound g g.initialFirst where
  within := within_initialFirst
  begins s set hset x hx := by
    by_cases hs : s ∈ g.nonterminals
    · rw [initialFirst, get?_foldl_insert_empty, if_pos hs] at hset
      obtain rfl := Option.some.inj hset
      exact absurd hx OrdSet.not_mem_empty
    · rw [← isNonterminal_iff, Bool.not_eq_true] at hs
      obtain ⟨rfl, hterminal⟩ := get?_initialFirst hs hset
      rw [OrdSet.mem_singleton] at hx
      subst hx
      exact .inr ⟨hterminal, [], .refl⟩

/-- What a production shows of its head can be derived from it. -/
theorem extend (hg : g.Proper) (h : FirstsSound g first) {p : Production}
    (hp : p ∈ g.productions) : FirstsSound g (first.extend p.head (first.ofSequence p.body)) where
  within := h.within.extend (isNonterminal_iff.1 (isNonterminal_head hp))
    (ofSequence_range h.within (symbols_of_body hp))
  begins s set hset x hx := by
    rw [get?_extend] at hset
    split at hset
    · next heq =>
      subst heq
      obtain rfl := Option.some.inj hset
      rcases OrdSet.mem_union.1 hx with hx | hx
      · obtain ⟨set, hset, -⟩ := h.within.key _ (isNonterminal_iff.1 (isNonterminal_head hp))
        rw [getD_eq_of_get? hset] at hx
        exact h.begins _ set hset x hx
      · have hbody := h.begins_of_mem hg (fun s hs => isSymbol_of_mem_body hp hs) hx
        exact hbody.of_derives (derives_body hp)
    · exact h.begins s set hset x hx

theorem round (hg : g.Proper) (h : FirstsSound g first) :
    FirstsSound g (firstRound g.productions first) :=
  List.foldlRecOn g.productions _ h fun _ h _ hp => h.extend hg hp

end FirstsSound

theorem firstsSound_firstSets (hg : g.Proper) : FirstsSound g g.firstSets :=
  stabilize_induction (fun _ h => h.round hg) g.setBound g.initialFirst .initial

/-! ## Nothing is missing -/

/-- A symbol that is no nonterminal is in the first set of every string that it begins. -/
theorem mem_ofSequence_self (ht : g.isNonterminal t = false) (hne : t ≠ emptySymbol)
    (rest : List String) : t ∈ g.firstSets.ofSequence (t :: rest) := by
  refine (mem_ofSequence_cons hne t rest).2 (.inl ⟨hne, ?_⟩)
  cases hset : g.firstSets.get? t with
  | none =>
    rw [ofSequence, hset]
    exact OrdSet.mem_singleton.2 rfl
  | some set =>
    obtain rfl := get?_firstSets_of_terminal ht hset
    exact (mem_ofSequence_singleton hset).2 (OrdSet.mem_singleton.2 rfl)

/-- What a body can begin with, its head can begin with. -/
theorem mem_ofSequence_head {p : Production} (hp : p ∈ g.productions)
    (hx : x ∈ g.firstSets.ofSequence p.body) : x ∈ g.firstSets.ofSequence [p.head] := by
  obtain ⟨set, hset, -⟩ := firstSets_spec.2.key _ (isNonterminal_iff.1 (isNonterminal_head hp))
  have hmem := mem_firstSets_of_body hp hx
  rw [getD_eq_of_get? hset] at hmem
  exact (mem_ofSequence_singleton hset).2 hmem

/-- **What can come first after a step could come first before it.** -/
theorem mem_ofSequence_of_step (hg : g.Proper) (h : g.Step ss ts) (hss : emptySymbol ∉ ss)
    (hx : x ∈ g.firstSets.ofSequence ts) : x ∈ g.firstSets.ofSequence ss := by
  cases h with
  | @replace before after p hp =>
    have hbody := hg.emptySymbol_not_mem_body p hp
    simp only [List.mem_append, List.mem_cons, not_or] at hss
    rw [List.append_assoc, mem_ofSequence_append hss.1, mem_ofSequence_append hbody] at hx
    rw [mem_ofSequence_append hss.1, mem_ofSequence_cons (Ne.symm hss.2.1)]
    have hempty := mem_ofSequence_head (x := emptySymbol) hp
    have hx' := mem_ofSequence_head (x := x) hp
    grind

theorem mem_ofSequence_of_derives (hg : g.Proper) (h : g.Derives ss ts) (hss : emptySymbol ∉ ss)
    (hx : x ∈ g.firstSets.ofSequence ts) : x ∈ g.firstSets.ofSequence ss := by
  induction h using Relation.ReflTransGen.head_induction_on with
  | refl => exact hx
  | head hstep _ ih =>
    exact mem_ofSequence_of_step hg hstep hss (ih (hstep.emptySymbol_not_mem hg hss))

/-- **First sets of strings are exact.** -/
theorem mem_ofSequence_iff (hg : g.Proper) (hss : ∀ s ∈ ss, g.IsSymbol s) :
    x ∈ g.firstSets.ofSequence ss ↔ g.Begins ss x := by
  have hempty : emptySymbol ∉ ss := fun h => (hss _ h).ne_emptySymbol hg rfl
  constructor
  · exact (firstsSound_firstSets hg).begins_of_mem hg hss
  · intro h
    rcases h with ⟨rfl, h⟩ | ⟨hx, rest, h⟩
    · refine mem_ofSequence_of_derives hg h hempty ?_
      rw [ofSequence]
      exact OrdSet.mem_singleton.2 rfl
    · have hne := IsSymbol.ne_emptySymbol hg (.inr hx)
      refine mem_ofSequence_of_derives hg h hempty ?_
      exact mem_ofSequence_self (isNonterminal_of_isTerminal hx) hne rest

/-! ## The sets of symbols -/

/-- Every symbol of the grammar has a first set. -/
theorem exists_get?_firstSets (hs : g.IsSymbol s) : ∃ set, g.firstSets.get? s = some set := by
  rcases hs with hs | hs
  · obtain ⟨set, hset, -⟩ := firstSets_spec.2.key s (isNonterminal_iff.1 hs)
    exact ⟨set, hset⟩
  · have hn : s ∉ g.nonterminals := by
      rw [← isNonterminal_iff, isNonterminal_of_isTerminal hs]
      exact Bool.false_ne_true
    refine ⟨OrdSet.singleton s, ?_⟩
    rw [firstSets_spec.2.other s hn, initialFirst, get?_foldl_insert_empty, if_neg hn]
    refine OrdMap.get?_ofList_eq (List.mem_map.2 ⟨s, mem_terminals_iff.2 hs, rfl⟩) ?_
    intro set hset
    obtain ⟨t, -, heq⟩ := List.mem_map.1 hset
    obtain ⟨rfl, rfl⟩ := Prod.mk.inj heq
    rfl

/-- **First sets of symbols are exact.** -/
theorem mem_firstSets_iff {set : OrdSet String} (hg : g.Proper) (hs : g.IsSymbol s)
    (hset : g.firstSets.get? s = some set) : x ∈ set ↔ g.Begins [s] x := by
  rw [← mem_ofSequence_singleton hset]
  exact mem_ofSequence_iff hg (List.forall_mem_singleton.2 hs)

/-- **The first sets of a grammar that was read are exact.** The rounds come to rest. Every symbol
has a set then, of terminals and the mark of the empty word; a terminal is in it exactly if the
symbol derives a string that begins with this terminal, and the mark exactly if it derives the
empty string, which is what makes it nullable. The same holds of the first set of every string of
symbols. -/
theorem firstSets_exact {text : String} (hread : read text = .ok g) :
    Settles (firstRound g.productions) g.initialFirst g.firstSets ∧
      (∀ s, g.IsSymbol s → ∃ set, g.firstSets.get? s = some set ∧
        (∀ x, x ∈ set → g.isTerminal x = true ∨ x = emptySymbol) ∧
        (∀ t, g.isTerminal t = true → (t ∈ set ↔ ∃ rest, g.Derives [s] (t :: rest))) ∧
        (emptySymbol ∈ set ↔ g.Derives [s] []) ∧ (g.nullable s = true ↔ g.Derives [s] [])) ∧
      ∀ ss, (∀ s ∈ ss, g.IsSymbol s) →
        (∀ t, g.isTerminal t = true →
          (t ∈ g.firstSets.ofSequence ss ↔ ∃ rest, g.Derives ss (t :: rest))) ∧
        (emptySymbol ∈ g.firstSets.ofSequence ss ↔ g.Derives ss []) := by
  have hg := proper_of_read hread
  refine ⟨settles_of_fixed firstSets_fixed, fun s hs => ?_, fun ss hss => ⟨fun t ht => ?_, ?_⟩⟩
  · obtain ⟨set, hset⟩ := exists_get?_firstSets hs
    have hmem := fun y => mem_firstSets_iff (x := y) hg hs hset
    have hempty : emptySymbol ∈ set ↔ g.Derives [s] [] :=
      (hmem emptySymbol).trans (Begins.emptySymbol_iff hg)
    refine ⟨set, hset, fun x hx => ?_, fun t ht => ?_, hempty, ?_⟩
    · exact ((hmem x).1 hx).elim (fun h => .inr h.1) fun h => .inl h.1
    · exact (hmem t).trans (Begins.terminal_iff hg ht)
    · rw [nullable, decide_eq_true_iff, getD_eq_of_get? hset]
      exact hempty
  · exact (mem_ofSequence_iff hg hss).trans (Begins.terminal_iff hg ht)
  · exact (mem_ofSequence_iff hg hss).trans (Begins.emptySymbol_iff hg)

/-- Here `A` may be left out, and `U` derives no word. -/
def openEnded : Grammar :=
  ⟨"S", ⟨[("S", [["A", "U", "b"]]), ("A", [[], ["a"]]), ("U", [["u", "U"]])], by decide⟩⟩

/-- The start symbol derives a string that begins with `u`, though none of terminals only. With `A`
left out nothing need come before `U`. -/
theorem firstSets_exact_openEnded :
    read "S ::= A U b\nA ::= & | a\nU ::= u U" = .ok openEnded ∧
      Settles (firstRound openEnded.productions) openEnded.initialFirst openEnded.firstSets ∧
      (openEnded.nullable "A" = true ∧ openEnded.Derives ["A"] []) ∧
      (∃ rest, openEnded.Derives ["S"] ("u" :: rest)) ∧ ¬ openEnded.Derives ["A", "U"] [] := by
  have hread : read "S ::= A U b\nA ::= & | a\nU ::= u U" = .ok openEnded := by decide +kernel
  obtain ⟨hsettles, hsymbol, hstring⟩ := firstSets_exact hread
  have hsymbols : ∀ s ∈ ["S", "A", "U"], openEnded.IsSymbol s := by
    unfold IsSymbol
    decide +kernel
  have hnullable : openEnded.nullable "A" = true := by decide +kernel
  obtain ⟨-, -, -, -, -, hA⟩ := hsymbol "A" (hsymbols "A" (by decide))
  refine ⟨hread, hsettles, ⟨hnullable, hA.1 hnullable⟩, ?_, fun h => ?_⟩
  · have hS : ∀ s ∈ ["S"], openEnded.IsSymbol s := fun s hs => hsymbols s (by grind)
    exact ((hstring ["S"] hS).1 "u" (by decide +kernel)).1 (by decide +kernel)
  · have hAU : ∀ s ∈ ["A", "U"], openEnded.IsSymbol s := fun s hs => hsymbols s (by grind)
    exact absurd ((hstring ["A", "U"] hAU).2.2 h) (by decide +kernel)

end Grammar

end Frontend
