import Frontend.Grammar.Reader
import Frontend.Proofs.Grammar.Derivation

/-!
# What holds of a grammar that was read

Reading a grammar rules out symbols that the tables of a parser need for themselves: the end
marker is no symbol at all, and the mark of the empty word is left out of the bodies. The
start symbol heads a rule. `Grammar.Proper` collects this, and `proper_of_read` says that it
holds of every grammar that `Grammar.read` gives.
-/

namespace Frontend

/-- The start symbol is a nonterminal, and the end marker and the empty word are no symbols. -/
structure Grammar.Proper (g : Grammar) : Prop where
  start_isNonterminal : g.isNonterminal g.start = true
  endMarker_not_head : g.isNonterminal endMarker = false
  endMarker_not_mem_body : ∀ p ∈ g.productions, endMarker ∉ p.body
  emptySymbol_not_head : g.isNonterminal emptySymbol = false
  emptySymbol_not_mem_body : ∀ p ∈ g.productions, emptySymbol ∉ p.body

namespace Grammar

variable {g : Grammar} {ss ts : List String}

theorem Proper.not_isTerminal_emptySymbol (hg : g.Proper) : ¬ g.isTerminal emptySymbol = true :=
  not_isTerminal_of_not_mem hg.emptySymbol_not_mem_body

theorem Proper.not_isTerminal_endMarker (hg : g.Proper) : ¬ g.isTerminal endMarker = true :=
  not_isTerminal_of_not_mem hg.endMarker_not_mem_body

theorem Step.emptySymbol_not_mem (hg : g.Proper) (h : g.Step ss ts) (hss : emptySymbol ∉ ss) :
    emptySymbol ∉ ts := by
  obtain ⟨before, after, hp⟩ := h
  have hbody := hg.emptySymbol_not_mem_body _ hp
  simp only [List.mem_append, List.mem_cons, not_or] at hss ⊢
  exact ⟨⟨hss.1, hbody⟩, hss.2.2⟩

/-- The mark of the empty word does not come up in a derivation. -/
theorem Derives.emptySymbol_not_mem (hg : g.Proper) (h : g.Derives ss ts)
    (hss : emptySymbol ∉ ss) : emptySymbol ∉ ts := by
  induction h with
  | refl => exact hss
  | tail _ hstep ih => exact hstep.emptySymbol_not_mem hg ih

end Grammar

/-- Neither mark heads a rule, and no body holds the end marker. -/
def Rules.Clean (r : Rules) : Prop :=
  ∀ e ∈ r.toList, e.1 ≠ endMarker ∧ e.1 ≠ emptySymbol ∧ ∀ body ∈ e.2, endMarker ∉ body

namespace Rules

theorem mem_write {head : String} {f : List Body → List Body} {e : String × List Body}
    {l : List (String × List Body)} (h : e ∈ write head f l) :
    e ∈ l ∨ ∃ bodies, e = (head, f bodies) ∧ (bodies = [] ∨ (head, bodies) ∈ l) := by
  induction l with
  | nil =>
    rw [write, List.mem_singleton] at h
    exact .inr ⟨[], h, .inl rfl⟩
  | cons x l ih =>
    obtain ⟨k, bodies⟩ := x
    unfold write at h
    split at h
    · next heq =>
      subst heq
      rcases List.mem_cons.1 h with rfl | h
      · exact .inr ⟨bodies, rfl, .inr List.mem_cons_self⟩
      · exact .inl (List.mem_cons_of_mem _ h)
    · rcases List.mem_cons.1 h with rfl | h
      · exact .inl List.mem_cons_self
      · rcases ih h with h | ⟨bodies', rfl, h | h⟩
        · exact .inl (List.mem_cons_of_mem _ h)
        · exact .inr ⟨bodies', rfl, .inl h⟩
        · exact .inr ⟨bodies', rfl, .inr (List.mem_cons_of_mem _ h)⟩

theorem Clean.add {r : Rules} {head : String} {bodies : List Body} (h : r.Clean)
    (hend : head ≠ endMarker) (hempty : head ≠ emptySymbol)
    (hbodies : ∀ body ∈ bodies, endMarker ∉ body) : (r.add head bodies).Clean := by
  intro e he
  rcases mem_write he with he | ⟨old, rfl, hold⟩
  · exact h e he
  · refine ⟨hend, hempty, fun body hbody => ?_⟩
    rcases List.mem_append.1 hbody with hbody | hbody
    · rcases hold with rfl | hold
      · cases hbody
      · exact (h _ hold).2.2 body hbody
    · exact hbodies body hbody

/-- A head with bodies is one of the heads. -/
theorem mem_heads_of_bodiesOf {r : Rules} {head : String} (h : r.bodiesOf head ≠ []) :
    head ∈ r.heads := by
  unfold bodiesOf at h
  cases hl : r.toList.lookup head with
  | none =>
    rw [hl] at h
    exact absurd rfl h
  | some bodies =>
    obtain ⟨l₁, l₂, heq, -⟩ := List.lookup_eq_some_iff.1 hl
    rw [heads, heq]
    simp

end Rules

namespace Grammar

/-- A rule passes the check as it is if neither mark heads it and its bodies do not hold the end
marker. -/
theorem checkRule?_eq_some_iff {rule : String × List Body} {head : String} {bodies : List Body} :
    checkRule? rule = some (head, bodies) ↔
      rule = (head, bodies) ∧ head ≠ emptySymbol ∧ head ≠ endMarker ∧
        ∀ body ∈ bodies, endMarker ∉ body := by
  have hany : (rule.2.any fun body => body.contains endMarker) = true ↔
      ∃ body ∈ rule.2, endMarker ∈ body := by
    simp only [List.any_eq_true, List.contains_iff_mem]
  unfold checkRule?
  split
  · next hmarks =>
    refine iff_of_false nofun ?_
    rintro ⟨rfl, hempty, hend, -⟩
    exact hmarks.elim hempty hend
  · next hmarks =>
    obtain ⟨hempty, hend⟩ := not_or.1 hmarks
    split
    · next hbody =>
      refine iff_of_false nofun ?_
      rintro ⟨rfl, -, -, hclean⟩
      obtain ⟨body, hmem, hmark⟩ := hany.1 hbody
      exact hclean body hmem hmark
    · next hbody =>
      rw [Option.some_inj]
      constructor
      · rintro rfl
        exact ⟨rfl, hempty, hend, fun body hmem hmark => hbody (hany.2 ⟨body, hmem, hmark⟩)⟩
      · exact fun h => h.1

/-- What is read as a rule heads it with neither mark, and has no end marker in its bodies. -/
theorem readLine_clean {table table' : SymbolTable} {line : List Char} {head : String}
    {bodies : List Body} (h : readLine table line = (table', some (some (head, bodies)))) :
    head ≠ endMarker ∧ head ≠ emptySymbol ∧ ∀ body ∈ bodies, endMarker ∉ body := by
  unfold readLine at h
  split at h
  · cases h
  · obtain ⟨rule, hrule, heq⟩ := Option.map_eq_some_iff.1 (Prod.mk.inj h).2
    obtain rfl := Option.some.inj heq
    obtain ⟨named, -, hcheck⟩ := Option.bind_eq_some_iff.1 hrule
    obtain ⟨-, hempty, hend, hbody⟩ := checkRule?_eq_some_iff.1 hcheck
    exact ⟨hend, hempty, hbody⟩

/-- The grammar of clean rules is proper. -/
theorem proper_of_ofRules {start : String} {rules : Rules} {g : Grammar}
    (h : ofRules start rules = .ok g) (hclean : rules.Clean) : g.Proper := by
  unfold ofRules at h
  split at h
  · cases h
  · split at h
    · cases h
    · next hstart =>
      obtain rfl := Except.ok.inj h
      have hheads : (rules.mapBodies normalizeBodies).heads = rules.heads := by
        simp [Rules.heads, Rules.mapBodies]
      have hnonterminal : ∀ s, isNonterminal ⟨start, rules.mapBodies normalizeBodies⟩ s = true ↔
          s ∈ rules.heads := by
        intro s
        rw [isNonterminal_iff, nonterminals, hheads]
      have hnot : ∀ s, (∀ e ∈ rules.toList, e.1 ≠ s) →
          isNonterminal ⟨start, rules.mapBodies normalizeBodies⟩ s = false := by
        intro s hs
        rw [← Bool.not_eq_true, hnonterminal]
        intro hmem
        obtain ⟨e, he, rfl⟩ := List.mem_map.1 hmem
        exact hs e he rfl
      -- A body of the grammar is one of the rules without the marks of the empty word.
      have hbody : ∀ p ∈ productions ⟨start, rules.mapBodies normalizeBodies⟩,
          ∃ e ∈ rules.toList, ∃ body ∈ e.2, p.body = body.filter (· ≠ emptySymbol) := by
        intro p hp
        rw [productions, List.mem_flatMap] at hp
        obtain ⟨⟨head, bodies⟩, hmem, hp⟩ := hp
        obtain ⟨body, hb, rfl⟩ := List.mem_map.1 hp
        obtain ⟨e, he, heq⟩ := List.mem_map.1 hmem
        obtain ⟨rfl, rfl⟩ := Prod.mk.inj heq
        obtain ⟨body', hb', rfl⟩ := List.mem_map.1 (mem_newcomers.1 hb).1
        exact ⟨e, he, body', hb', rfl⟩
      refine ⟨?_, hnot _ fun e he => (hclean e he).1, ?_, hnot _ fun e he => (hclean e he).2.1, ?_⟩
      · rw [hnonterminal]
        refine Rules.mem_heads_of_bodiesOf fun hnil => hstart ?_
        rw [hnil]
        rfl
      · intro p hp hmem
        obtain ⟨e, he, body, hb, heq⟩ := hbody p hp
        rw [heq] at hmem
        exact (hclean e he).2.2 body hb (List.mem_filter.1 hmem).1
      · intro p hp hmem
        obtain ⟨e, he, body, hb, heq⟩ := hbody p hp
        rw [heq] at hmem
        simpa using (List.mem_filter.1 hmem).2

theorem proper_of_readLines {lines : List (Nat × List Char)} {start : Option String}
    {rules : Rules} {table : SymbolTable} {g : Grammar}
    (h : readLines start rules table lines = .ok g) (hclean : rules.Clean) : g.Proper := by
  induction lines generalizing start rules table with
  | nil =>
    unfold readLines at h
    split at h
    · cases h
    · exact proper_of_ofRules h hclean
  | cons line lines ih =>
    obtain ⟨n, line⟩ := line
    unfold readLines at h
    split at h
    · cases h
    · exact ih h hclean
    · next hrule =>
      obtain ⟨hend, hempty, hbodies⟩ := readLine_clean hrule
      exact ih h (hclean.add hend hempty hbodies)

/-- **Every grammar that is read is proper.** -/
theorem proper_of_read {text : String} {g : Grammar} (h : read text = .ok g) : g.Proper :=
  proper_of_readLines h fun e he => by cases he

end Grammar

end Frontend
