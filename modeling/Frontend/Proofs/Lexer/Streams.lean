import Frontend.Proofs.Lexer.Persistence

/-!
# Streams of lexemes are read back

A lexeme is written without escapes, and its word may hold any character. A line says a lexeme
exactly if it is what would be written for it, and the token can be told from the word before it
and from the mark of a missing one (`Lexeme.ofLine?_eq_some_iff`); nothing is asked of the word.
A stream is read line by line (`Lexeme.readAll_eq_ok_iff`), so it is read back if no lexeme
breaks the line that it is written on (`Lexeme.readAll_renderAll`).

The words that a lexer scans are lines, and the names of definitions hold neither commas nor
exclamation marks. So what a lexer writes about the words of a text is read back, with one entry
for each line that is not blank (`Lexer.tokenColumn_scan`).
-/

namespace Frontend

namespace Lexeme

variable {l : Lexeme} {ls : List Lexeme} {line : List Char} {word token : String}

/-! ## Lexemes -/

/-- The token of a lexeme can be told from the word before it, and from the mark of a missing
token. -/
def Distinct (l : Lexeme) : Prop :=
  ∀ token, l.token = some token → ',' ∉ token.toList ∧ token ≠ noToken

theorem distinct_none : Distinct ⟨word, none⟩ := nofun

theorem distinct_some : Distinct ⟨word, some token⟩ ↔ ',' ∉ token.toList ∧ token ≠ noToken :=
  ⟨fun h => h token rfl, by rintro h _ ⟨⟩; exact h⟩

theorem Distinct.comma_not_mem (h : l.Distinct) : ',' ∉ l.tokenText.toList := by
  obtain ⟨word, _ | token⟩ := l
  · change ',' ∉ noToken.toList
    decide
  · exact (distinct_some.1 h).1

theorem toList_render (l : Lexeme) :
    l.render.toList = '<' :: (l.word.toList ++ ',' :: l.tokenText.toList ++ ['>']) := by
  simp [render]

/-- A line is cut at its last comma. -/
theorem ofLine?_eq_some_iff_exists :
    ofLine? line = some l ↔ ∃ word token : String, ',' ∉ token.toList ∧
      Text.trim line = '<' :: (word.toList ++ ',' :: token.toList ++ ['>']) ∧
        l = ⟨word, if token = noToken then none else some token⟩ := by
  simp only [ofLine?, Option.bind_eq_bind, Option.bind_eq_some_iff, Text.stripFirst?_eq_some_iff,
    Text.stripLast?_eq_some_iff, Option.pure_def, Option.some_inj]
  constructor
  · rintro ⟨_, hline, inner, rfl, ⟨word, token⟩, hcut, rfl⟩
    obtain ⟨rfl, hcomma⟩ := Text.cutLast?_eq_some_iff.1 hcut
    exact ⟨String.ofList word, String.ofList token, by simpa using hcomma, by simpa using hline,
      rfl⟩
  · rintro ⟨word, token, hcomma, hline, rfl⟩
    exact ⟨_, hline, _, rfl, (word.toList, token.toList), Text.cutLast?_append _ hcomma, by simp⟩

/-- **A line says the lexeme that would be written so**, blank characters around it aside. -/
theorem ofLine?_eq_some_iff :
    ofLine? line = some l ↔ Text.trim line = l.render.toList ∧ l.Distinct := by
  rw [ofLine?_eq_some_iff_exists, toList_render]
  constructor
  · rintro ⟨word, token, hcomma, hline, rfl⟩
    by_cases hmark : token = noToken
    · subst hmark
      exact ⟨hline, distinct_none⟩
    · rw [if_neg hmark]
      exact ⟨hline, distinct_some.2 ⟨hcomma, hmark⟩⟩
  · rintro ⟨hline, hdistinct⟩
    refine ⟨l.word, l.tokenText, hdistinct.comma_not_mem, hline, ?_⟩
    obtain ⟨word, _ | token⟩ := l
    · rfl
    · rw [tokenText, Option.getD_some, if_neg (distinct_some.1 hdistinct).2]

/-- A written lexeme begins and ends with an angle bracket. -/
theorem trim_render (l : Lexeme) : Text.trim l.render.toList = l.render.toList := by
  rw [toList_render]
  exact Text.trim_of_ends (by decide) (by decide) _

theorem ofLine?_render (h : l.Distinct) : ofLine? l.render.toList = some l :=
  ofLine?_eq_some_iff.2 ⟨trim_render l, h⟩

theorem isBlankText_render (l : Lexeme) : Text.isBlankText l.render.toList = false := by
  rw [Text.isBlankText_eq_false_iff, toList_render]
  exact ⟨'<', List.mem_cons_self, by decide⟩

/-! ## Streams -/

/-- A lexeme that can be written on a line and told from it. -/
structure Legible (l : Lexeme) : Prop where
  distinct : l.Distinct
  word : '\n' ∉ l.word.toList
  token : '\n' ∉ l.tokenText.toList

/-- The lines of a stream that are not blank say its lexemes. -/
theorem readAll_eq_ok_iff {text : String} :
    readAll text = .ok ls ↔ List.Forall₂ (fun line l => ofLine? line = some l)
      ((Text.lines text.toList).filter fun line => !Text.isBlankText line) ls := by
  rw [readAll, mapM_eq_ok, Text.numberedLines,
    ← Text.map_snd_numberFrom 1 (Text.lines text.toList), List.filter_map,
    List.forall₂_map_left_iff, Text.map_snd_numberFrom]
  refine iff_of_eq (congrFun (congrFun (congrArg List.Forall₂ ?_) _) _)
  funext ⟨n, line⟩ l
  cases hline : ofLine? line <;> simp [hline]

/-- Each lexeme is written on a line of its own. -/
theorem lines_renderAll (h : ∀ l ∈ ls, l.Legible) :
    Text.lines (renderAll ls).toList = ls.map fun l => l.render.toList := by
  rw [renderAll, Text.toList_unlines, List.flatMap_map,
    ← List.flatMap_map (fun l : Lexeme => l.render.toList) (· ++ ['\n'])]
  refine Text.lines_flatMap (List.forall_mem_map.2 fun l hl => ?_)
    (List.forall_mem_map.2 fun l hl => ?_)
  · rw [toList_render]
    simp [(h l hl).word, (h l hl).token]
  · -- The last character is the closing angle bracket.
    rw [toList_render, ← List.cons_append, List.getLast?_concat]
    decide

/-- **A stream is read back** if its lexemes can be told from their lines. -/
theorem readAll_renderAll (h : ∀ l ∈ ls, l.Legible) : readAll (renderAll ls) = .ok ls := by
  have hfilter : (ls.map fun l => l.render.toList).filter (fun line => !Text.isBlankText line) =
      ls.map fun l => l.render.toList := by
    rw [List.filter_eq_self, List.forall_mem_map]
    intro l _
    rw [isBlankText_render, Bool.not_false]
  rw [readAll_eq_ok_iff, lines_renderAll h, hfilter, List.forall₂_map_left_iff, List.forall₂_same]
  exact fun l hl => ofLine?_render (h l hl).distinct

end Lexeme

/-! ## What a lexer writes -/

/-- A name holds no comma and no line feed, and is not the mark of a missing token. -/
theorem Definition.IsName.legible {name : String} (h : IsName name) :
    ',' ∉ name.toList ∧ '\n' ∉ name.toList ∧ name ≠ Lexeme.noToken := by
  refine ⟨fun hc => ?_, fun hc => ?_, ?_⟩
  · exact absurd (h.2 _ hc) (by decide)
  · exact absurd (h.2 _ hc) (by decide)
  · rintro rfl
    exact absurd (h.2 '!' (by decide)) (by decide)

namespace Lexer

variable {ds : Definitions} {lexer : Lexer}

/-- A word on a line is classified as a lexeme that can be written on one. -/
theorem legible_classify {text : String} (hread : Definitions.read text = .ok ds)
    (h : ofDefinitions ds = .ok lexer) {word : List Char} (hword : '\n' ∉ word) :
    (lexer.classify word).Legible := by
  have hname : ∀ token, (lexer.classify word).token = some token →
      ',' ∉ token.toList ∧ '\n' ∉ token.toList ∧ token ≠ Lexeme.noToken := fun token htoken =>
    (Definitions.isName_of_read hread token (mem_tokens_of_classify h htoken)).legible
  constructor
  case distinct => exact fun token htoken => ⟨(hname token htoken).1, (hname token htoken).2.2⟩
  case word =>
    rw [classify, String.toList_ofList]
    exact fun hmem => hword (Text.mem_of_mem_trim hmem)
  case token =>
    rw [Lexeme.tokenText]
    cases htoken : (lexer.classify word).token with
    | none => decide
    | some token => exact (hname token htoken).2.1

/-- **What a lexer writes about the words of a text is read back**, whatever the words hold: each
lexeme stands on a line of its own and is read from it, and the tokens of the stream are those of
the lines of the text that are not blank, in order. -/
theorem tokenColumn_scan {text : String} (hread : Definitions.read text = .ok ds)
    (h : ofDefinitions ds = .ok lexer) (words : String) :
    tokenColumn (Lexeme.renderAll (lexer.scan (Text.lines words.toList))) =
        .ok (((Text.lines words.toList).filter fun line => !Text.isBlankText line).map
          fun line => (lexer.classify line).token.getD "erro!") ∧
      Text.lines (Lexeme.renderAll (lexer.scan (Text.lines words.toList))).toList =
        (lexer.scan (Text.lines words.toList)).map (fun l => l.render.toList) ∧
      ∀ l ∈ lexer.scan (Text.lines words.toList), Lexeme.ofLine? l.render.toList = some l := by
  have hlegible : ∀ l ∈ lexer.scan (Text.lines words.toList), l.Legible := by
    refine List.forall_mem_map.2 fun line hline => legible_classify hread h ?_
    exact Text.newline_not_mem_of_mem_lines line (List.mem_of_mem_filter hline)
  refine ⟨?_, Lexeme.lines_renderAll hlegible,
    fun l hl => Lexeme.ofLine?_render (hlegible l hl).distinct⟩
  rw [tokenColumn, Lexeme.readAll_renderAll hlegible, scan]
  exact congrArg Except.ok List.map_map

/-- Separators and pairs of angle brackets, which are also what lexemes are written with. -/
def delimiters : Definitions :=
  ⟨[⟨"SEP", ",", 1, "SEP: ,"⟩, ⟨"PAIR", "\\<,\\>", 2, "PAIR: \\<,\\>"⟩], by decide⟩

/-- Blank lines are skipped, and a word may look like a lexeme. -/
theorem tokenColumn_scan_delimiters :
    Definitions.read "SEP: ,\nPAIR: \\<,\\>" = .ok delimiters ∧
      ∃ lexer, ofDefinitions delimiters = .ok lexer ∧
        Lexeme.renderAll (lexer.scan
            (Text.lines " <,>\r\n\n,\na b\rc\n \t\n<x,erro!>\r\n".toList)) =
          "<<,>,PAIR>\n<,,SEP>\n<a b\rc,erro!>\n<<x,erro!>,erro!>\n" ∧
        tokenColumn "<<,>,PAIR>\n<,,SEP>\n<a b\rc,erro!>\n<<x,erro!>,erro!>\n" =
          .ok ["PAIR", "SEP", "erro!", "erro!"] := by
  have hread : Definitions.read "SEP: ,\nPAIR: \\<,\\>" = .ok delimiters := by decide +kernel
  obtain ⟨lexer, h⟩ : ∃ lexer, ofDefinitions delimiters = .ok lexer :=
    exists_of_isOk (by decide +kernel)
  have hlexer : (ofDefinitions delimiters).map (fun lexer =>
      (Lexeme.renderAll (lexer.scan
          (Text.lines " <,>\r\n\n,\na b\rc\n \t\n<x,erro!>\r\n".toList)),
        ((Text.lines " <,>\r\n\n,\na b\rc\n \t\n<x,erro!>\r\n".toList).filter
          fun line => !Text.isBlankText line).map
            fun line => (lexer.classify line).token.getD "erro!")) =
      .ok ("<<,>,PAIR>\n<,,SEP>\n<a b\rc,erro!>\n<<x,erro!>,erro!>\n",
        ["PAIR", "SEP", "erro!", "erro!"]) := by
    decide +kernel
  rw [h] at hlexer
  simp only [Except.map, Except.ok.injEq, Prod.mk.injEq] at hlexer
  obtain ⟨hwritten, htokens⟩ := hlexer
  obtain ⟨hcolumn, -, -⟩ :=
    tokenColumn_scan hread h " <,>\r\n\n,\na b\rc\n \t\n<x,erro!>\r\n"
  rw [hwritten, htokens] at hcolumn
  exact ⟨hread, lexer, h, hwritten, hcolumn⟩

end Lexer

end Frontend
