import Frontend.Proofs.Grammar.ExactFirst
import Frontend.Proofs.Grammar.SententialForms

/-!
# Follow sets are exact

The follow set of a nonterminal holds a terminal exactly if the terminal comes right behind it in
a string that some nonterminal derives, and the end marker exactly if the start symbol derives a
string that ends with it (`mem_followSets_iff`).

That nothing else is in the sets is kept by every look at a body (`FollowsSound`). That nothing is
missing is kept by every step of a derivation: what a string shows to come behind a nonterminal is
what the rest of the string can begin with and, if this rest can be empty, what follows the
nonterminal that the string is derived from. A step inside the rest shows nothing new, and for the
symbols of a body that comes in the rounds have looked at it (`mem_followSets_of_derives`).
-/

namespace Frontend.Grammar

open SymbolSets

variable {g : Grammar} {follow : SymbolSets} {p : Production} {head s t x : String}
  {front rest ss : List String}

/-! ## Nothing else is in the sets -/

/-- The terminal `x` comes right behind `s` in a string that a nonterminal derives; or `x` is the
end marker, and the start symbol derives a string that ends with `s`. -/
def FollowedBy (g : Grammar) (s x : String) : Prop :=
  (x = endMarker ∧ ∃ before, g.Derives [g.start] (before ++ [s])) ∨
    (g.isTerminal x = true ∧ ∃ head before after, g.isNonterminal head = true ∧
      g.Derives [head] (before ++ s :: x :: after))

namespace FollowedBy

/-- What comes behind a symbol comes behind the last one of a string derived from it. -/
theorem of_derives (hderives : g.Derives [s] (front ++ [t])) (h : g.FollowedBy s x) :
    g.FollowedBy t x := by
  rcases h with ⟨rfl, before, h⟩ | ⟨hx, head, before, after, hhead, h⟩
  · refine .inl ⟨rfl, before ++ front, ?_⟩
    rw [List.append_assoc]
    exact h.trans (hderives.append_left before)
  · refine .inr ⟨hx, head, before ++ front, after, hhead, ?_⟩
    have hlater := (hderives.append_right (x :: after)).append_left before
    simp only [List.append_assoc, List.singleton_append] at hlater ⊢
    exact h.trans hlater

/-- What the rest of a body shows comes behind the symbol before it. -/
theorem of_shown (hg : g.Proper) (hp : p ∈ g.productions) (hbody : p.body = front ++ s :: rest)
    (hfollow : ∀ x, x ∈ follow.getD p.head ∅ → g.FollowedBy p.head x)
    (hx : x ∈ shown g.firstSets follow p.head rest) : g.FollowedBy s x := by
  have hrest : ∀ t ∈ rest, g.IsSymbol t := fun t ht =>
    isSymbol_of_mem_body hp (hbody ▸ List.mem_append_right _ (List.mem_cons_of_mem _ ht))
  have hderives := derives_body hp
  rw [hbody] at hderives
  rcases mem_shown.1 hx with ⟨hne, hx⟩ | ⟨hempty, hx⟩
  · rcases (mem_ofSequence_iff hg hrest).1 hx with ⟨heq, -⟩ | ⟨hterminal, more, hmore⟩
    · exact absurd heq hne
    · refine .inr ⟨hterminal, p.head, front, more, isNonterminal_head hp, hderives.trans ?_⟩
      exact (hmore.append_left [s]).append_left front
  · -- The rest derives nothing, so the symbol comes last in what the head derives.
    have hnothing := (Begins.emptySymbol_iff hg).1 ((mem_ofSequence_iff hg hrest).1 hempty)
    have hlast := hderives.trans ((hnothing.append_left [s]).append_left front)
    exact (hfollow x hx).of_derives hlast

theorem endMarker_iff (hg : g.Proper) :
    g.FollowedBy s endMarker ↔ ∃ before, g.Derives [g.start] (before ++ [s]) := by
  constructor
  · intro h
    rcases h with ⟨-, h⟩ | ⟨h, -⟩
    · exact h
    · exact absurd h hg.not_isTerminal_endMarker
  · exact fun h => .inl ⟨rfl, h⟩

theorem terminal_iff (hg : g.Proper) (ht : g.isTerminal t = true) :
    g.FollowedBy s t ↔ ∃ head before after,
      g.isNonterminal head = true ∧ g.Derives [head] (before ++ s :: t :: after) := by
  constructor
  · intro h
    rcases h with ⟨rfl, -⟩ | ⟨-, h⟩
    · exact absurd ht hg.not_isTerminal_endMarker
    · exact h
  · exact fun h => .inr ⟨ht, h⟩

end FollowedBy

/-- The sets hold nothing but what comes behind the symbols. -/
def FollowsSound (g : Grammar) (follow : SymbolSets) : Prop :=
  ∀ s x, x ∈ follow.getD s ∅ → g.FollowedBy s x

/-- Nothing is in a table of empty sets. -/
theorem getD_emptySets (keys : List String) (s : String) :
    (OrdMap.ofList (keys.map fun k => (k, (∅ : OrdSet String)))).getD s ∅ = ∅ := by
  by_cases hs : s ∈ keys
  · exact getD_eq_of_get? (get?_emptySets hs)
  · rw [OrdMap.getD, OrdMap.get?_ofList_eq_none fun set hmem => hs ?_, Option.getD_none]
    obtain ⟨k, hk, heq⟩ := List.mem_map.1 hmem
    exact (Prod.mk.inj heq).1 ▸ hk

namespace FollowsSound

theorem initial : FollowsSound g g.initialFollow := by
  intro s x hx
  rcases mem_getD_extend.1 hx with hmem | ⟨rfl, hmem⟩
  · rw [getD_emptySets] at hmem
    exact absurd hmem OrdSet.not_mem_empty
  · exact .inl ⟨OrdSet.mem_singleton.1 hmem, [], .refl⟩

theorem extend {more : OrdSet String} (h : FollowsSound g follow)
    (hmore : ∀ x, x ∈ more → g.FollowedBy s x) : FollowsSound g (follow.extend s more) := by
  intro t x hx
  rcases mem_getD_extend.1 hx with hx | ⟨rfl, hmem⟩
  · exact h t x hx
  · exact hmore x hmem

theorem body (hg : g.Proper) (h : FollowsSound g follow) (hp : p ∈ g.productions)
    (hbody : p.body = front ++ rest) :
    FollowsSound g (g.followInBody g.firstSets p.head rest follow) := by
  induction rest generalizing follow front with
  | nil => exact h
  | cons symbol rest ih =>
    have hbody' : p.body = (front ++ [symbol]) ++ rest := by
      rw [hbody, List.append_assoc, List.singleton_append]
    rw [followInBody_cons]
    split
    · exact ih (h.extend fun x hx => .of_shown hg hp hbody (h p.head) hx) hbody'
    · exact ih h hbody'

theorem round (hg : g.Proper) (h : FollowsSound g follow) :
    FollowsSound g (g.followRound g.firstSets follow) :=
  List.foldlRecOn g.productions _ h fun _ h _ hp => h.body hg hp (List.nil_append _).symm

end FollowsSound

theorem followsSound_followSets (hg : g.Proper) : FollowsSound g g.followSets :=
  stabilize_induction (fun _ h => h.round hg) g.setBound g.initialFollow .initial

/-! ## Nothing is missing -/

/-- What two strings in a row show: what the first can begin with, and if it can be empty what the
second shows. -/
theorem mem_shown_append {first : SymbolSets} (hfront : emptySymbol ∉ front) :
    x ∈ shown first follow head (front ++ rest) ↔
      x ≠ emptySymbol ∧ x ∈ first.ofSequence front ∨
        emptySymbol ∈ first.ofSequence front ∧ x ∈ shown first follow head rest := by
  rw [mem_shown, mem_shown, mem_ofSequence_append hfront, mem_ofSequence_append hfront]
  grind

/-- A derivation shows nothing new. -/
theorem mem_shown_of_derives {ts : List String} (hg : g.Proper) (h : g.Derives ss ts)
    (hss : emptySymbol ∉ ss) (hx : x ∈ shown g.firstSets follow head ts) :
    x ∈ shown g.firstSets follow head ss := by
  rcases mem_shown.1 hx with ⟨hne, hx⟩ | ⟨hempty, hx⟩
  · exact mem_shown.2 (.inl ⟨hne, mem_ofSequence_of_derives hg h hss hx⟩)
  · exact mem_shown.2 (.inr ⟨mem_ofSequence_of_derives hg h hss hempty, hx⟩)

/-- A string shows the first symbol of every word that it yields, and what follows the head if
this word is empty. -/
theorem Yields.headD_mem_shown {word : List String} {ps : List Production} (hg : g.Proper)
    (h : g.Yields ss word ps) (hss : emptySymbol ∉ ss) (hx : x ∈ follow.getD head ∅) :
    word.headD x ∈ shown g.firstSets follow head ss := by
  have hderives := h.rightmost.derives
  have hword := hderives.emptySymbol_not_mem hg hss
  refine mem_shown_of_derives hg hderives hss (mem_shown.2 ?_)
  cases word with
  | nil => exact .inr ⟨OrdSet.mem_singleton.2 rfl, hx⟩
  | cons y word =>
    have hy := (noNonterminals_cons.1 h.noNonterminals).1
    have hne : y ≠ emptySymbol := fun heq => hword (heq ▸ List.mem_cons_self)
    exact .inl ⟨hne, mem_ofSequence_self hy hne word⟩

/-- **What a derived string shows to come behind a nonterminal is in its follow set.** -/
theorem mem_followSets_of_derives (hg : g.Proper) (h : g.Derives [head] ss)
    (hhead : head ≠ emptySymbol) (hss : ss = front ++ s :: rest) (hs : g.isNonterminal s = true)
    (hx : x ∈ shown g.firstSets g.followSets head rest) : x ∈ g.followSets.getD s ∅ := by
  induction h generalizing front s rest x with
  | refl =>
    rcases List.singleton_eq_append_iff.1 hss with ⟨-, hss⟩ | ⟨-, hss⟩
    · obtain ⟨rfl, rfl⟩ := List.cons.inj hss
      rcases mem_shown.1 hx with ⟨hne, hx⟩ | ⟨-, hx⟩
      · exact absurd (OrdSet.mem_singleton.1 hx) hne
      · exact hx
    · cases hss
  | @tail us _ hderives hstep ih =>
    have hus := Derives.emptySymbol_not_mem hg hderives (by simpa using hhead.symm)
    obtain ⟨before, after, hp⟩ := hstep
    rw [List.append_assoc] at hss
    rcases List.append_eq_append_cons_iff.1 hss with ⟨mid, rfl, rfl⟩ | ⟨mid, rfl, hbehind⟩
    · -- The symbol stands before the head, and the step is one inside the rest.
      have hstep := Step.replace mid after hp
      rw [List.append_assoc] at hstep
      rw [List.append_assoc, List.cons_append] at ih hus
      have hmid := fun h => hus (List.mem_append_right _ (List.mem_cons_of_mem _ h))
      exact ih rfl hs (mem_shown_of_derives hg (.single hstep) hmid hx)
    · rcases List.append_eq_append_cons_iff.1 hbehind with ⟨back, hbody, rfl⟩ | ⟨back, rfl, rfl⟩
      · -- It came in with the body, and what the string shows behind the head follows the head.
        have hback : emptySymbol ∉ back := fun h =>
          hg.emptySymbol_not_mem_body _ hp
            (hbody ▸ List.mem_append_right _ (List.mem_cons_of_mem _ h))
        rcases (mem_shown_append hback).1 hx with ⟨hne, hx⟩ | ⟨hempty, hx⟩
        · exact mem_followSets_of_body hp hbody hs (mem_shown.2 (.inl ⟨hne, hx⟩))
        · have hx := ih rfl (isNonterminal_head hp) hx
          exact mem_followSets_of_body hp hbody hs (mem_shown.2 (.inr ⟨hempty, hx⟩))
      · -- It stands behind the head, where the step changes nothing.
        rw [← List.cons_append, ← List.append_assoc] at ih
        exact ih rfl hs hx

/-! ## The sets of nonterminals -/

/-- **Follow sets are exact.** -/
theorem mem_followSets_iff {set : OrdSet String} (hg : g.Proper) (hs : g.isNonterminal s = true)
    (hset : g.followSets.get? s = some set) : x ∈ set ↔ g.FollowedBy s x := by
  rw [← getD_eq_of_get? hset]
  constructor
  · exact followsSound_followSets hg s x
  · intro h
    rcases h with ⟨rfl, before, h⟩ | ⟨hx, head, before, after, hhead, h⟩
    · have hstart := IsSymbol.ne_emptySymbol hg (.inl hg.start_isNonterminal)
      refine mem_followSets_of_derives hg h hstart rfl hs (mem_shown.2 (.inr ⟨?_, ?_⟩))
      · exact OrdSet.mem_singleton.2 rfl
      · exact endMarker_mem_followSets
    · have hne := IsSymbol.ne_emptySymbol hg (.inl hhead)
      have hx' := IsSymbol.ne_emptySymbol hg (.inr hx)
      refine mem_followSets_of_derives hg h hne rfl hs (mem_shown.2 (.inl ⟨hx', ?_⟩))
      exact mem_ofSequence_self (isNonterminal_of_isTerminal hx) hx' after

/-- **The follow sets of a grammar that was read are exact.** The rounds come to rest. Every
nonterminal has a set then, of terminals and the end marker; a terminal is in it exactly if it
comes right behind the nonterminal in a string that some nonterminal derives, which need not come
up in a derivation from the start symbol, and the end marker exactly if the start symbol derives a
string that ends with the nonterminal. -/
theorem followSets_exact {text : String} (hread : read text = .ok g) :
    Settles (g.followRound g.firstSets) g.initialFollow g.followSets ∧
      ∀ s, g.isNonterminal s = true → ∃ set, g.followSets.get? s = some set ∧
        (∀ x, x ∈ set → g.isTerminal x = true ∨ x = endMarker) ∧
        (∀ t, g.isTerminal t = true → (t ∈ set ↔ ∃ head before after,
          g.isNonterminal head = true ∧ g.Derives [head] (before ++ s :: t :: after))) ∧
        (endMarker ∈ set ↔ ∃ before, g.Derives [g.start] (before ++ [s])) := by
  have hg := proper_of_read hread
  refine ⟨settles_of_fixed followSets_fixed, fun s hs => ?_⟩
  obtain ⟨set, hset, -⟩ := followSets_spec.2.key s (isNonterminal_iff.1 hs)
  have hmem := fun y => mem_followSets_iff (x := y) hg hs hset
  refine ⟨set, hset, fun x hx => ?_, fun t ht => ?_, ?_⟩
  · exact ((hmem x).1 hx).elim (fun h => .inr h.1) fun h => .inl h.1
  · exact (hmem t).trans (FollowedBy.terminal_iff hg ht)
  · exact (hmem endMarker).trans (FollowedBy.endMarker_iff hg)

/-- Here `B` may be left out, and `U` does not come up in a derivation from `S`. -/
def sideRule : Grammar :=
  ⟨"S", ⟨[("S", [["A", "B"]]), ("A", [["a"]]), ("B", [[], ["b"]]), ("U", [["A", "u"]])],
    by decide⟩⟩

/-- Behind `A` comes `b`, or nothing, in what the start symbol derives; `u` comes behind it too,
though in what `U` derives only. -/
theorem followSets_exact_sideRule :
    read "S ::= A B\nA ::= a\nB ::= & | b\nU ::= A u" = .ok sideRule ∧
      Settles (sideRule.followRound sideRule.firstSets) sideRule.initialFollow
        sideRule.followSets ∧
      (∃ before, sideRule.Derives ["S"] (before ++ ["A"])) ∧
      (∃ head before after, sideRule.isNonterminal head = true ∧
        sideRule.Derives [head] (before ++ "A" :: "u" :: after)) ∧
      ¬ ∃ before, sideRule.Derives ["S"] (before ++ ["U"]) := by
  have hread : read "S ::= A B\nA ::= a\nB ::= & | b\nU ::= A u" = .ok sideRule := by
    decide +kernel
  obtain ⟨hsettles, hsets⟩ := followSets_exact hread
  obtain ⟨behindA, hA, -, hterminal, hmarker⟩ := hsets "A" (by decide +kernel)
  obtain ⟨behindU, hU, -, -, hnone⟩ := hsets "U" (by decide +kernel)
  rw [← getD_eq_of_get? hA] at hterminal hmarker
  rw [← getD_eq_of_get? hU] at hnone
  refine ⟨hread, hsettles, hmarker.1 (by decide +kernel), ?_, fun h => ?_⟩
  · exact (hterminal "u" (by decide +kernel)).1 (by decide +kernel)
  · exact absurd (hnone.2 h) (by decide +kernel)

end Frontend.Grammar
