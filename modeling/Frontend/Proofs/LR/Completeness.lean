import Frontend.Proofs.Grammar.ExactFollow
import Frontend.Proofs.LR.Cells
import Frontend.Proofs.LR.Runs

/-!
# Sentences are accepted

Without conflicts every cell of a table holds what an item of its state asks for. A parser in
a state that has an item then reads what the symbols after the dot yield, and comes to a state
with the completed item (`runsOver_of_yields`): a terminal is shifted, and for a nonterminal the
parser opens its production, reads the body and reduces. The induction is on the derivation
from left to right; what comes next in the input stays in the follow set of the head, so the
reduction is there.

A parser does the same whatever the limit on its steps (`runFrom_mono`), so there is only one
outcome and only one derivation for a sentence.
-/

namespace Frontend

namespace Grammar

variable {g : Grammar} {n d : Nat} {p : Production} {x : String} {ss word : List String}
  {ps : List Production}

/-- The symbol may come after the body of the production of this number: the end marker after
that of the start production, and else what follows the head. -/
def ComesAfter (g : Grammar) (n : Nat) (p : Production) (x : String) : Prop :=
  if n = 0 then x = endMarker else x ∈ g.followSets.getD p.head ∅

/-- What comes after a body goes on, behind a nonterminal in this body, with the first symbol
of what the symbols in between yield. -/
theorem ComesAfter.mem_followSets {p' : Production} (hg : g.Proper)
    (hp : g.augmentedProductions[n]? = some p) (hp' : p' ∈ g.productions)
    (hdrop : p.body.drop d = p'.head :: ss) (h : g.Yields ss word ps) (hx : g.ComesAfter n p x) :
    word.headD x ∈ g.followSets.getD p'.head ∅ := by
  have hbody : p.body = p.body.take d ++ p'.head :: ss := by rw [← hdrop, List.take_append_drop]
  unfold ComesAfter at hx
  split at hx
  · next hn =>
    subst hn hx
    obtain rfl := Option.some.inj hp
    -- The body of the start production is the start symbol alone.
    obtain ⟨hhead, rfl⟩ : g.start = p'.head ∧ [] = ss := by
      cases d with
      | zero => exact List.cons.inj hdrop
      | succ d => simp at hdrop
    cases h with
    | nil => exact hhead ▸ endMarker_mem_followSets
  · next hn =>
    have hmem := mem_productions_of_ne_zero hn hp
    have hempty : emptySymbol ∉ ss := fun hss => by
      refine hg.emptySymbol_not_mem_body p hmem ?_
      rw [hbody]
      exact List.mem_append_right _ (.tail _ hss)
    exact mem_followSets_of_body hmem hbody (isNonterminal_head hp')
      (h.headD_mem_shown hg hempty hx)

end Grammar

namespace ParseTable

variable {g : Grammar} {q r n d : Nat} {below : List Nat} {p : Production} {x : String}

/-! ## Single steps -/

/-- With an item before a terminal, the terminal is shifted. -/
theorem step_shift {rest : List String} (hnone : (ofGrammar g).conflicts = [])
    (hi : g.HasItem q ⟨n, d⟩) (hnext : Item.next? g.augmentedProductions ⟨n, d⟩ = some x)
    (hgoes : g.Goes q x r) (hx : g.isNonterminal x = false) :
    (ofGrammar g).step ⟨q :: below, x :: rest⟩ = .proceed (.shift r) ⟨r :: q :: below, rest⟩ := by
  have haction : (ofGrammar g).actionAt? ⟨q :: below, x :: rest⟩ = some (.shift r) :=
    action?_of_asks hnone hi (a := .shift r) ⟨hnext, hgoes, hx⟩
  rw [step, haction]
  rfl

/-- With a completed item, its body is replaced by the head. -/
theorem step_reduce {pushed : List Nat} (rest : List String)
    (hnone : (ofGrammar g).conflicts = []) (hn : n ≠ 0)
    (hp : g.augmentedProductions[n]? = some p) (hlength : pushed.length = p.body.length)
    (htop : g.HasItem ((pushed ++ q :: below).headD 0) ⟨n, p.body.length⟩)
    (hx : x ∈ g.followSets.getD p.head ∅) {i : Item} (hi : g.HasItem q i)
    (hnext : i.next? g.augmentedProductions = some p.head) (hgoes : g.Goes q p.head r) :
    (ofGrammar g).step ⟨pushed ++ q :: below, x :: rest⟩ =
      .proceed (.reduce n p) ⟨r :: q :: below, x :: rest⟩ := by
  have hhead : headOf g ⟨n, p.body.length⟩ = p.head := by
    rw [headOf, hp, Option.map_some, Option.getD_some]
  have hcomplete : Item.next? g.augmentedProductions ⟨n, p.body.length⟩ = none :=
    (Item.next?_eq_none_iff htop.fits).2 ⟨p, hp, rfl⟩
  have haction : (ofGrammar g).actionAt? ⟨pushed ++ q :: below, x :: rest⟩ = some (.reduce n) :=
    action?_of_asks hnone htop (a := .reduce n) ⟨hcomplete, rfl, hn, hhead ▸ hx⟩
  have hgoto : (ofGrammar g).action? q p.head = some (.goto r) :=
    action?_of_asks hnone hi (a := .goto r)
      ⟨hnext, hgoes, Grammar.isNonterminal_head (Grammar.mem_productions_of_ne_zero hn hp)⟩
  have hps : (ofGrammar g).productions[n]? = some p := hp
  -- The states pushed for the body come off, and the one it began in is uncovered.
  have hdrop : (pushed ++ q :: below).drop p.body.length = q :: below := by
    rw [← hlength, List.drop_left]
  rw [step, haction]
  dsimp only
  rw [hps]
  dsimp only
  rw [reduce, if_pos (by simp only [List.length_append, List.length_cons]; omega)]
  dsimp only
  rw [hdrop, List.headD_cons, hgoto]

/-! ## Runs along a derivation -/

/-- From every state with an item that has these symbols behind its dot, the parser reads the
word, reduces by the productions and comes to a state with the item completed. -/
def RunsOver (g : Grammar) (ss word : List String) (ps : List Production) : Prop :=
  ∀ q below rest n d p x, g.HasItem q ⟨n, d⟩ → g.augmentedProductions[n]? = some p →
    p.body.drop d = ss → g.ComesAfter n p x →
      ∃ pushed ms, (ofGrammar g).Runs ⟨q :: below, word ++ x :: rest⟩ ms
          ⟨pushed ++ q :: below, x :: rest⟩ ∧
        pushed.length = ss.length ∧
        g.HasItem ((pushed ++ q :: below).headD 0) ⟨n, p.body.length⟩ ∧
        reductionsOf ms = ps.reverse

/-- With nothing behind the dot, the item is completed. -/
theorem runsOver_nil : RunsOver g [] [] [] := by
  intro q below rest n d p x hi hp hdrop hx
  obtain ⟨p', hp', hdot⟩ := hi.fits
  obtain rfl := Option.some.inj (hp.symm.trans hp')
  have hd : d = p.body.length := by
    have hlength := congrArg List.length hdrop
    rw [List.length_drop, List.length_nil] at hlength
    exact Nat.le_antisymm hdot (Nat.sub_eq_zero_iff_le.1 hlength)
  exact ⟨[], [], .refl _, rfl, hd ▸ hi, rfl⟩

/-- A terminal is shifted. -/
theorem RunsOver.terminal {t : String} {ss word : List String} {ps : List Production}
    (hg : g.Proper) (hnone : (ofGrammar g).conflicts = []) (ht : g.isNonterminal t = false)
    (h : RunsOver g ss word ps) : RunsOver g (t :: ss) (t :: word) ps := by
  intro q below rest n d p x hi hp hdrop hx
  obtain ⟨hnext, hdrop', r, hgoes, hi'⟩ := hi.exists_goes hg hp hdrop
  obtain ⟨pushed, ms, hruns, hlength, htop, hms⟩ := h r (q :: below) rest n _ p x hi' hp hdrop' hx
  refine ⟨pushed ++ [r], .shift r :: ms, .step (step_shift hnone hi hnext hgoes ht) ?_, ?_, ?_, ?_⟩
  · rw [List.append_assoc]
    exact hruns
  · rw [List.length_append, hlength, List.length_singleton, List.length_cons]
  · rw [List.append_assoc]
    exact htop
  · exact hms

/-- For a nonterminal its production is opened and reduced by, behind its body. -/
theorem RunsOver.nonterminal {p' : Production} {ss u v : List String} {ps qs : List Production}
    (hg : g.Proper) (hnone : (ofGrammar g).conflicts = []) (hp' : p' ∈ g.productions)
    (hyields : g.Yields ss v qs) (hbody : RunsOver g p'.body u ps) (hrest : RunsOver g ss v qs) :
    RunsOver g (p'.head :: ss) (u ++ v) (qs ++ p' :: ps) := by
  intro q below rest n d p x hi hp hdrop hx
  obtain ⟨hnext, hdrop', r, hgoes, hi'⟩ := hi.exists_goes hg hp hdrop
  obtain ⟨m, hm⟩ := Grammar.exists_number_of_mem_productions hp'
  have hfollow := hx.mem_followSets hg hp hp' hdrop hyields
  -- What comes after the body is the rest of the word, or what comes after all of it.
  obtain ⟨y, more, hinput, hy⟩ : ∃ y more, v ++ x :: rest = y :: more ∧
      y ∈ g.followSets.getD p'.head ∅ := by
    cases v with
    | nil => exact ⟨x, rest, rfl, hfollow⟩
    | cons y v => exact ⟨y, v ++ x :: rest, rfl, hfollow⟩
  have hafter : g.ComesAfter (m + 1) p' y := by
    rw [Grammar.ComesAfter, if_neg (Nat.succ_ne_zero m)]
    exact hy
  obtain ⟨opened, ms, hruns, hlength, htop, hms⟩ :=
    hbody q below more _ _ p' y (hi.opening hnext hm) hm rfl hafter
  have hreduce := step_reduce more hnone (Nat.succ_ne_zero m) hm hlength htop hy hi hnext hgoes
  obtain ⟨pushed, ms', hruns', hlength', htop', hms'⟩ :=
    hrest r (q :: below) rest n _ p x hi' hp hdrop' hx
  refine ⟨pushed ++ [r], ms ++ .reduce (m + 1) p' :: ms', ?_, ?_, ?_, ?_⟩
  · rw [List.append_assoc u, hinput, List.append_assoc]
    rw [hinput] at hruns'
    exact hruns.trans (.step hreduce hruns')
  · rw [List.length_append, hlength', List.length_singleton, List.length_cons]
  · rw [List.append_assoc]
    exact htop'
  · rw [reductionsOf_append, hms, List.reverse_append, List.reverse_cons, List.append_assoc,
      ← hms']
    rfl

/-- **The parser follows a derivation from left to right.** -/
theorem runsOver_of_yields {ss word : List String} {ps : List Production} (hg : g.Proper)
    (hnone : (ofGrammar g).conflicts = []) (h : g.Yields ss word ps) : RunsOver g ss word ps := by
  induction h with
  | nil => exact runsOver_nil
  | terminal ht _ ih => exact ih.terminal hg hnone ht
  | nonterminal hp' _ hyields ihbody ihrest =>
    exact .nonterminal hg hnone hp' hyields ihbody ihrest

/-- On a word that the start symbol yields a run leads to acceptance, by the productions of its
derivation. -/
theorem exists_run_of_yields {word : List String} {ps : List Production} (hg : g.Proper)
    (hnone : (ofGrammar g).conflicts = []) (h : g.Yields [g.start] word ps) :
    ∃ ms d, (ofGrammar g).Runs (.initial word) ms d ∧
      (ofGrammar g).step d = .halt .accept true ∧ reductionsOf ms = ps.reverse := by
  have hp : g.augmentedProductions[0]? = some ⟨g.augmentedStart, [g.start]⟩ := rfl
  obtain ⟨pushed, ms, hruns, hlength, htop, hms⟩ :=
    runsOver_of_yields hg hnone h 0 [] [] 0 0 _ endMarker Grammar.hasItem_zero hp rfl
      (by rw [Grammar.ComesAfter, if_pos rfl])
  have hcomplete := (Item.next?_eq_none_iff htop.fits).2 ⟨_, hp, rfl⟩
  have haction : (ofGrammar g).actionAt? ⟨pushed ++ [0], [endMarker]⟩ = some .accept :=
    action?_of_asks hnone htop (a := .accept) ⟨hcomplete, rfl, rfl⟩
  have hhalt : (ofGrammar g).step ⟨pushed ++ [0], [endMarker]⟩ = .halt .accept true := by
    rw [step, haction]
  exact ⟨ms, _, hruns, hhalt, hms⟩

/-- A word that the start symbol yields is accepted, by the productions of its derivation. -/
theorem exists_outcome_of_yields {word : List String} {ps : List Production} (hg : g.Proper)
    (hnone : (ofGrammar g).conflicts = []) (h : g.Yields [g.start] word ps) :
    ∃ limit o, (ofGrammar g).parseWithin? limit word = some (.ok o) ∧ o.accepted = true ∧
      o.reducedBy = ps.reverse := by
  obtain ⟨ms, d, hruns, hhalt, hms⟩ := exists_run_of_yields hg hnone h
  obtain ⟨o, ho, haccepted, hmoves⟩ :=
    exists_runFrom word.length (p := .initial word) hruns hhalt rfl
  refine ⟨_, o, ho, haccepted, ?_⟩
  have htrace : (Progress.initial word).trace = [] := rfl
  rw [ParseOutcome.reducedBy, hmoves, htrace, reductionsOf_append, reductionsOf_append, hms]
  simp [reductionsOf, ParseMove.production?]

/-- **Every sentence is accepted** if the table has no conflict: from some limit on the parse
comes to an end, and the productions it reduced by, read from the last to the first, are the
rightmost derivation of the sentence. -/
theorem sentence_is_accepted {text : String} {word : List String}
    (hread : Grammar.read text = .ok g) (hnone : (ofGrammar g).conflicts = [])
    (hword : g.IsSentence word) :
    ∃ limit o, (∀ more ≥ limit, (ofGrammar g).parseWithin? more word = some (.ok o)) ∧
      o.accepted = true ∧ g.Rightmost o.reducedBy.reverse [g.start] word ∧
        ∀ ps, g.Rightmost ps [g.start] word → ps = o.reducedBy.reverse := by
  have hg := Grammar.proper_of_read hread
  have hterminals := Grammar.noNonterminals_of_isTerminal hword.1
  obtain ⟨ps, hyields⟩ := Grammar.exists_yields_of_derives hword.2 hterminals
  obtain ⟨limit, o, ho, haccepted, hby⟩ := exists_outcome_of_yields hg hnone hyields
  refine ⟨limit, o, fun more hmore => runFrom_mono hmore ho, haccepted, ?_, fun qs hqs => ?_⟩
  · rw [hby, List.reverse_reverse]
    exact hyields.rightmost
  · obtain ⟨limit', o', ho', -, hby'⟩ := exists_outcome_of_yields hg hnone (hqs.yields hterminals)
    -- Two runs that come to an end have the same outcome, so the derivations agree.
    have heq : o = o' := by
      have hmax := runFrom_mono (Nat.le_max_left limit limit') ho
      rw [runFrom_mono (Nat.le_max_right limit limit') ho'] at hmax
      exact (Except.ok.inj (Option.some.inj hmax)).symm
    rw [heq, hby', List.reverse_reverse]

/-- Words in brackets, which may be empty. -/
def nested : Grammar := ⟨"S", ⟨[("S", [["a", "S", "b"], []])], by decide⟩⟩

/-- The innermost production is the empty one, on which the parser reduces without a shift. -/
theorem sentence_is_accepted_nested :
    Grammar.read "S ::= a S b |" = .ok nested ∧ (ofGrammar nested).conflicts = [] ∧
      nested.IsSentence ["a", "a", "b", "b"] ∧
        ∃ limit o, (∀ more ≥ limit,
            (ofGrammar nested).parseWithin? more ["a", "a", "b", "b"] = some (.ok o)) ∧
          o.accepted = true ∧
            nested.Rightmost o.reducedBy.reverse [nested.start] ["a", "a", "b", "b"] ∧
              ∀ ps, nested.Rightmost ps [nested.start] ["a", "a", "b", "b"] →
                ps = o.reducedBy.reverse := by
  have hread : Grammar.read "S ::= a S b |" = .ok nested := by decide +kernel
  have hnone : (ofGrammar nested).conflicts = [] := by decide +kernel
  have hword : nested.IsSentence ["a", "a", "b", "b"] := by
    refine ⟨by decide +kernel, ?_⟩
    have hfull : (⟨"S", ["a", "S", "b"]⟩ : Production) ∈ nested.productions := by decide
    have hempty : (⟨"S", []⟩ : Production) ∈ nested.productions := by decide
    exact .head (.replace [] [] hfull) (.head (.replace ["a"] ["b"] hfull)
      (.head (.replace ["a", "a"] ["b", "b"] hempty) .refl))
  exact ⟨hread, hnone, hword, sentence_is_accepted hread hnone hword⟩

end ParseTable

end Frontend
