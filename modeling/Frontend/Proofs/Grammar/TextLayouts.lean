import Frontend.Proofs.Grammar.LineLayouts
import Frontend.Proofs.Grammar.Rules
import Frontend.Proofs.Outcomes
import Frontend.Proofs.Text.Lines

/-!
# How a grammar can be laid out as a text

A text lays productions out (`LaysOut`) if each of its lines is a rule or has no tokens, and the
productions of the rules are the given ones up to what does not matter: the bodies of different
heads may come in any order as long as the heads first appear in order, and the empty word may
stand anywhere in a body.

`readFrom ps` is the reader after lines with the productions `ps`. A line without tokens changes
nothing (`readFrom_nothing`), a rule adds its productions (`readFrom_rule`), and any other line is
refused (`readFrom_malformed`), so by induction on the lines a text gives the grammar of all its
productions (`readFrom_append`). `read_spec` puts this together: every layout of productions is
read as their grammar, and in a text that is no layout the first line at fault is reported.
-/

namespace Frontend.Grammar

variable {head start : String} {body : Body} {bodies : List Body} {p : Production}
  {ps qs : List Production} {c : Char} {cs line : List Char} {ls before : List (List Char)}
  {contents : List (Option (String × List Body))} {n : Nat}

/-! ## Layouts -/

/-- The productions of all rules, in order. -/
def productionsOf (contents : List (Option (String × List Body))) : List Production :=
  contents.flatMap fun
    | none => []
    | some (head, bodies) => bodies.map (⟨head, ·⟩)

/-- `qs` are the productions `ps` in an order that keeps the first appearances of heads and the
bodies of each head in order, with the empty word put into the bodies anywhere. -/
structure Spreads (ps qs : List Production) : Prop where
  heads : newcomers [] (qs.map Production.head) = newcomers [] (ps.map Production.head)
  bodies : ∀ head, (qs.filter (·.head = head)).map (·.body.filter (· ≠ emptySymbol)) =
    (ps.filter (·.head = head)).map Production.body

theorem filter_head_eq_nil (h : head ∉ ps.map Production.head) :
    ps.filter (·.head = head) = [] := by
  refine List.filter_eq_nil_iff.2 fun p hp => ?_
  rw [decide_eq_true_iff]
  rintro rfl
  exact h (List.mem_map_of_mem hp)

/-- Only the heads that occur have to be looked at. -/
theorem spreads_iff : Spreads ps qs ↔
    newcomers [] (qs.map Production.head) = newcomers [] (ps.map Production.head) ∧
      ∀ head ∈ ps.map Production.head,
        (qs.filter (·.head = head)).map (·.body.filter (· ≠ emptySymbol)) =
          (ps.filter (·.head = head)).map Production.body := by
  constructor
  · exact fun h => ⟨h.heads, fun head _ => h.bodies head⟩
  · rintro ⟨hheads, hbodies⟩
    refine ⟨hheads, fun head => ?_⟩
    by_cases hp : head ∈ ps.map Production.head
    · exact hbodies head hp
    · have hq : head ∉ qs.map Production.head := by
        intro hq
        have hmem : head ∈ newcomers [] (qs.map Production.head) :=
          mem_newcomers.2 ⟨hq, List.not_mem_nil⟩
        rw [hheads] at hmem
        exact hp (mem_newcomers.1 hmem).1
      rw [filter_head_eq_nil hp, filter_head_eq_nil hq]
      rfl

instance : Decidable (Spreads ps qs) := decidable_of_iff _ spreads_iff.symm

/-- Every line of the text is a rule or has no tokens, and together they give the productions. -/
def LaysOut (ps : List Production) (text : String) : Prop :=
  ∃ contents, List.Forall₂ Says contents (Text.lines text.toList) ∧
    Spreads ps (productionsOf contents)

/-- A layout can be checked by reading its lines. -/
theorem laysOut_of_contents {text : String} (contents : List (Option (String × List Body)))
    (hcontents : (Text.lines text.toList).map content? = contents.map some)
    (h : Spreads ps (productionsOf contents)) : LaysOut ps text := by
  have hsays : ∀ {ls : List (List Char)} {contents}, (∀ l ∈ ls, '\n' ∉ l) →
      ls.map content? = contents.map some → List.Forall₂ Says contents ls := by
    intro ls contents hnewline hcontents
    induction ls generalizing contents with
    | nil =>
      obtain rfl := List.map_eq_nil_iff.1 hcontents.symm
      exact .nil
    | cons l ls ih =>
      obtain ⟨hl, hls⟩ := List.forall_mem_cons.1 hnewline
      obtain ⟨content, contents, rfl, hcontent, hrest⟩ := List.map_eq_cons_iff.1 hcontents.symm
      exact .cons ((says_iff hl).2 hcontent.symm) (ih hls hrest.symm)
  exact ⟨contents, hsays Text.newline_not_mem_of_mem_lines hcontents, h⟩

/-! ## Reading on -/

/-- Reads lines, of which the first has number `n`, after lines with the productions `ps`. -/
def readFrom (ps : List Production) (n : Nat) (ls : List (List Char)) : Except Error Grammar :=
  readLines (ps.head?.map Production.head) (.ofProductions ps) ∅ (Text.numberFrom n ls)

theorem read_eq_readFrom (text : String) : read text = readFrom [] 1 (Text.lines text.toList) := rfl

/-- At the end there is the grammar of the first head and of all productions. -/
theorem readFrom_nil (p : Production) (ps : List Production) (n : Nat) :
    readFrom (p :: ps) n [] = ofRules p.head (.ofProductions (p :: ps)) := by
  rw [readFrom, Text.numberFrom, List.head?_cons, Option.map_some, readLines]

theorem readFrom_nothing (hline : '\n' ∉ line) (h : Says none line) :
    readFrom ps n (line :: ls) = readFrom ps (n + 1) ls := by
  rw [readFrom, Text.numberFrom, readLines_cons, (says_iff hline).1 h]
  rfl

theorem readFrom_rule (hline : '\n' ∉ line) (h : Says (some (head, bodies)) line) :
    readFrom ps n (line :: ls) = readFrom (ps ++ bodies.map (⟨head, ·⟩)) (n + 1) ls := by
  have hbodies : bodies ≠ [] := by
    cases h with
    | rule _ hbodies => exact hbodies
  have hstart : (ps ++ bodies.map (Production.mk head)).head?.map Production.head =
      some ((ps.head?.map Production.head).getD head) := by
    cases ps with
    | nil =>
      obtain ⟨body, bodies, rfl⟩ := List.exists_cons_of_ne_nil hbodies
      rfl
    | cons p ps => rfl
  rw [readFrom, Text.numberFrom, readLines_cons, (says_iff hline).1 h, readFrom, hstart,
    Rules.ofProductions_append ps head hbodies]

theorem readFrom_malformed (hline : '\n' ∉ line) (h : ¬ ∃ content, Says content line) :
    readFrom ps n (line :: ls) = .error (.malformedRule n (String.ofList (Text.trim line))) := by
  have hnone : content? line = none :=
    Option.eq_none_iff_forall_ne_some.2 fun content hcontent =>
      h ⟨content, (says_iff hline).2 hcontent⟩
  rw [readFrom, Text.numberFrom, readLines_cons, hnone]

/-- Rules and lines without tokens are read one after the other. -/
theorem readFrom_append (hbefore : ∀ l ∈ before, '\n' ∉ l)
    (h : List.Forall₂ Says contents before) :
    readFrom ps n (before ++ ls) =
      readFrom (ps ++ productionsOf contents) (n + before.length) ls := by
  induction h generalizing ps n with
  | nil => rw [productionsOf, List.flatMap_nil, List.append_nil]; rfl
  | @cons content line contents before hsays _ ih =>
    obtain ⟨hline, hbefore⟩ := List.forall_mem_cons.1 hbefore
    rw [List.cons_append, List.length_cons, Nat.add_comm before.length, ← Nat.add_assoc]
    cases content with
    | none => exact (readFrom_nothing hline hsays).trans (ih hbefore)
    | some rule =>
      obtain ⟨head, bodies⟩ := rule
      rw [readFrom_rule hline hsays, ih hbefore, List.append_assoc]
      rfl

/-! ## Grammars -/

/-- The grammar does not depend on where the empty word stands in bodies. -/
theorem ofRules_mapBodies (start : String) (rules : Rules) :
    ofRules start (rules.mapBodies (List.map (List.filter (· ≠ emptySymbol)))) =
      ofRules start rules := by
  have hall : (rules.mapBodies (List.map (List.filter (· ≠ emptySymbol)))).toList.all
      (fun e => e.2.isEmpty) = rules.toList.all fun e => e.2.isEmpty :=
    List.all_map.trans (congrArg rules.toList.all (funext fun _ => List.isEmpty_map))
  have hnormalize : ∀ bodies : List Body,
      normalizeBodies (bodies.map (List.filter (· ≠ emptySymbol))) = normalizeBodies bodies := by
    intro bodies
    rw [normalizeBodies, List.map_map]
    refine congrArg (newcomers []) (List.map_congr_left fun body _ => ?_)
    rw [Function.comp_apply, List.filter_filter]
    exact List.filter_congr fun _ _ => Bool.and_self _
  have hmap : (rules.mapBodies (List.map (List.filter (· ≠ emptySymbol)))).mapBodies
      normalizeBodies = rules.mapBodies normalizeBodies := by
    rw [← Rules.toList_inj]
    refine List.map_map.trans (List.map_congr_left fun e _ => ?_)
    exact congrArg (Prod.mk e.1) (hnormalize e.2)
  refine if_congr (iff_of_eq (congrArg (· = true) hall)) rfl ?_
  rw [Rules.bodiesOf_mapBodies List.map_nil, List.isEmpty_map, hmap]

/-- Productions that are spread out have the same grammar. -/
theorem ofRules_ofProductions (h : Spreads ps qs) :
    ofRules start (.ofProductions qs) = ofRules start (.ofProductions ps) := by
  have hrules : (Rules.ofProductions qs).mapBodies (List.map (List.filter (· ≠ emptySymbol))) =
      .ofProductions ps := by
    refine Rules.ext_bodiesOf ?_ fun head => ?_
    · rw [Rules.heads_mapBodies, Rules.heads_ofProductions, Rules.heads_ofProductions, h.heads]
    · rw [Rules.bodiesOf_mapBodies List.map_nil, Rules.bodiesOf_ofProductions,
        Rules.bodiesOf_ofProductions, List.map_map, ← h.bodies]
      rfl
  rw [← ofRules_mapBodies, hrules]

/-- Every layout of productions is read as the grammar of the first head and of all of them. -/
theorem read_eq_ofRules {text : String} (h : LaysOut (p :: ps) text) :
    read text = ofRules p.head (.ofProductions (p :: ps)) := by
  obtain ⟨contents, hsays, hspreads⟩ := h
  have hread : readFrom [] 1 (Text.lines text.toList ++ []) = _ :=
    readFrom_append Text.newline_not_mem_of_mem_lines hsays
  rw [List.append_nil, List.nil_append] at hread
  -- There is a rule, and the first one has the head of the first production.
  have hheads := hspreads.heads
  cases hqs : productionsOf contents with
  | nil =>
    rw [hqs] at hheads
    cases hheads
  | cons q qs =>
    rw [hqs] at hheads hspreads
    have hhead : q.head = p.head := (List.cons.inj hheads).1
    rw [read_eq_readFrom, hread, hqs, readFrom_nil, hhead, ofRules_ofProductions hspreads]

/-! ## Plain layouts -/

/-- Head and body are of symbols, and neither mark is among them. -/
def Writable (p : Production) : Prop :=
  ∀ s ∈ p.head :: p.body, IsName s ∧ s ≠ emptySymbol ∧ s ≠ endMarker

/-- A production on a line of its own, with a blank after each word. -/
def plainLine (p : Production) : List Char :=
  p.head.toList ++ [' ', ':', ':', '=', ' '] ++ p.body.flatMap fun s => s.toList ++ [' ']

theorem apart_separator (hc : isSeparator c = true) : Apart (c :: cs) := by
  intro d hd
  obtain rfl : c = d := Option.some.inj hd
  exact .inl hc

theorem layout_body (h : ∀ s ∈ body, IsName s) :
    Layout (body.map .symbol) (body.flatMap fun s => s.toList ++ [' ']) := by
  induction body with
  | nil => exact .nil
  | cons s body ih =>
    obtain ⟨hs, hbody⟩ := List.forall_mem_cons.1 h
    rw [List.map_cons, List.flatMap_cons, List.append_assoc]
    exact .symbol hs (apart_separator rfl) (.separator rfl (ih hbody))

theorem says_plainLine (h : Writable p) : Says (some (p.head, [p.body])) (plainLine p) := by
  obtain ⟨⟨hhead, hempty, hend⟩, hbody⟩ := List.forall_mem_cons.1 h
  have halternatives : alternatives [p.body] = p.body.map .symbol := by
    rw [alternatives, List.map_singleton, List.intercalate_singleton]
  refine .rule ?_ (List.cons_ne_nil _ _) hempty hend ?_
  · rw [ruleTokens, halternatives, plainLine, List.append_assoc]
    refine .symbol hhead (apart_separator rfl) (.separator rfl ?_)
    refine .derives (apart_separator rfl) (.separator rfl ?_)
    exact layout_body fun s hs => (hbody s hs).1
  · intro body hmem hmark
    rw [List.mem_singleton.1 hmem] at hmark
    exact (hbody _ hmark).2.2 rfl

/-- There is no end of a line in a plain line. -/
theorem mem_plainLine (h : Writable p) : ∀ c ∈ plainLine p, isWordChar c = true ∨ c = ' ' := by
  obtain ⟨hhead, hbody⟩ := List.forall_mem_cons.1 h
  intro c hc
  rw [plainLine, List.mem_append, List.mem_append, List.mem_flatMap] at hc
  rcases hc with (hc | hc) | ⟨s, hs, hc⟩
  · exact .inl (hhead.1.isWordChar c hc)
  · have hmarks : ∀ c ∈ [' ', ':', ':', '=', ' '], (isWordChar c || c == ' ') = true :=
      List.all_eq_true.1 rfl
    exact (Bool.or_eq_true_iff.1 (hmarks c hc)).imp_right beq_iff_eq.1
  · rcases List.mem_append.1 hc with hc | hc
    · exact .inl ((hbody s hs).1.isWordChar c hc)
    · exact .inr (List.mem_singleton.1 hc)

theorem productionsOf_singletons (ps : List Production) :
    productionsOf (ps.map fun p => some (p.head, [p.body])) = ps := by
  rw [productionsOf, List.flatMap_map]
  exact List.flatMap_singleton' ps

/-- Productions without the empty word in their bodies are spread out as they stand. -/
theorem Spreads.refl (h : ∀ p ∈ ps, emptySymbol ∉ p.body) : Spreads ps ps where
  heads := rfl
  bodies head := by
    refine List.map_congr_left fun p hp => List.filter_eq_self.2 fun s hs => ?_
    rw [decide_eq_true_iff]
    rintro rfl
    exact h p (List.mem_filter.1 hp).1 hs

/-- Productions can be laid out. -/
theorem exists_laysOut (h : ∀ p ∈ ps, Writable p) : ∃ text, LaysOut ps text := by
  have hmem : ∀ c, ¬ (isWordChar c = true ∨ c = ' ') → ∀ l ∈ ps.map plainLine, c ∉ l := by
    intro c hc l hl hmem
    obtain ⟨p, hp, rfl⟩ := List.mem_map.1 hl
    exact hc (mem_plainLine (h p hp) c hmem)
  have hlines : Text.lines ((ps.map plainLine).flatMap (· ++ ['\n'])) = ps.map plainLine :=
    Text.lines_flatMap (hmem '\n' (by decide)) fun l hl hlast =>
      hmem '\r' (by decide) l hl (List.mem_of_getLast? hlast)
  refine ⟨String.ofList ((ps.map plainLine).flatMap (· ++ ['\n'])),
    ps.map fun p => some (p.head, [p.body]), ?_, ?_⟩
  · rw [String.toList_ofList, hlines, List.forall₂_map_left_iff, List.forall₂_map_right_iff,
      List.forall₂_same]
    exact fun p hp => says_plainLine (h p hp)
  · rw [productionsOf_singletons]
    refine .refl fun p hp hmark => ?_
    exact (h p hp _ (List.mem_cons_of_mem _ hmark)).2.1 rfl

/-! ## Texts -/

/-- The first line that is neither a rule nor without tokens is reported, whatever follows it. -/
theorem read_eq_malformedRule {text : String} {after : List (List Char)}
    (htext : Text.lines text.toList = before ++ line :: after)
    (hbefore : ∀ l ∈ before, ∃ content, Says content l) (hline : ¬ ∃ content, Says content line) :
    read text = .error (.malformedRule (before.length + 1) (String.ofList (Text.trim line))) := by
  have hnewline : ∀ l ∈ Text.lines text.toList, '\n' ∉ l := Text.newline_not_mem_of_mem_lines
  rw [htext, List.forall_mem_append, List.forall_mem_cons] at hnewline
  obtain ⟨hnewlines, hnewline, -⟩ := hnewline
  obtain ⟨contents, hcontents⟩ :=
    (List.exists_forall₂_iff (R := fun l content => Says content l)).2 hbefore
  rw [read_eq_readFrom, htext, readFrom_append hnewlines hcontents.flip,
    readFrom_malformed hnewline hline, Nat.add_comm]

/-- **Every layout of productions is read as their grammar.** Productions of symbols can be laid
out, and each layout gives the grammar of the first head and the productions. In a text with a line
that is neither a rule nor without tokens, the first such line is reported with its number. -/
theorem read_spec :
    (∀ p ps, (∀ q ∈ p :: ps, Writable q) → (∃ text, LaysOut (p :: ps) text) ∧
      ∀ text, LaysOut (p :: ps) text → read text = ofRules p.head (.ofProductions (p :: ps))) ∧
    ∀ (text : String) (before : List (List Char)) (line : List Char) (after : List (List Char)),
      Text.lines text.toList = before ++ line :: after →
      (∀ l ∈ before, ∃ content, Says content l) → (¬ ∃ content, Says content line) →
      read text = .error (.malformedRule (before.length + 1) (String.ofList (Text.trim line))) :=
  ⟨fun _ _ h => ⟨exists_laysOut h, fun _ => read_eq_ofRules⟩,
    fun _ _ _ _ => read_eq_malformedRule⟩

/-- Sums, with empty bodies. -/
def sums : List Production :=
  [⟨"E", ["E", "+", "T"]⟩, ⟨"E", ["T"]⟩, ⟨"E", []⟩, ⟨"T", ["(E)"]⟩, ⟨"T", []⟩]

/-- A layout of sums in which the bodies of the first head come before and after those of the
second one. -/
def sumsText : String :=
  "-- sums\nE  ::=  E + T|T &  -- all\r\n\r\nT ::= (E)|--x\n E ::= --\r\n"

theorem read_spec_sums : (∀ q ∈ sums, Writable q) ∧ LaysOut sums sumsText ∧
    read sumsText = ofRules "E" (.ofProductions sums) ∧
    read "E ::= a\n\n E ::= b ::= c\t\nT" = .error (.malformedRule 3 "E ::= b ::= c") := by
  have hwritable : ∀ q ∈ sums, Writable q := by
    unfold Writable
    decide +kernel
  have hlayout : LaysOut sums sumsText :=
    laysOut_of_contents [none, some ("E", [["E", "+", "T"], ["T", "&"]]), none,
      some ("T", [["(E)"], []]), some ("E", [[]])] (by decide +kernel) (by decide +kernel)
  refine ⟨hwritable, hlayout, (read_spec.1 _ _ hwritable).2 _ hlayout, ?_⟩
  refine (read_spec.2 _ ["E ::= a".toList, []] " E ::= b ::= c\t".toList ["T".toList]
    (by decide +kernel) ?_ ?_).trans (by decide +kernel)
  · refine List.forall_mem_cons.2
      ⟨⟨some ("E", [["a"]]), ?_⟩, List.forall_mem_singleton.2 ⟨none, ?_⟩⟩
    · exact (says_iff (by decide +kernel)).2 (by decide +kernel)
    · exact (says_iff (by decide +kernel)).2 (by decide +kernel)
  · rintro ⟨content, hcontent⟩
    have hnone : content? " E ::= b ::= c\t".toList = none := by decide +kernel
    rw [(says_iff (by decide +kernel)).1 hcontent] at hnone
    cases hnone

end Frontend.Grammar
