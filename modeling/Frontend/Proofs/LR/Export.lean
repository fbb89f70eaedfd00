import Frontend.Proofs.LR.Candidates
import Frontend.Proofs.Text.CommaSeparated
import Frontend.Proofs.Text.Digits
import Frontend.Proofs.Text.Lines

/-!
# The comma-separated text of a table loses nothing

What is written for a table is read back field by field (`readRecords?_csv`), whatever the symbols
look like: those with a comma, a quote or a line feed are quoted, and the texts of actions and the
numbers of states hold none of these. In the table of a grammar no two columns have one symbol, no
action lies outside the columns, and the text of an action tells which action it is. So the action
of a state on a symbol is found in the field under the symbol (`csv_spec`).
-/

namespace Frontend

open Text (Reading)

/-! ## The texts of actions -/

namespace Action

/-- The action that a text stands for. -/
def ofText? (text : String) : Option Action :=
  match text.toList with
  | 's' :: number => (String.ofList number).toNat?.map shift
  | 'r' :: number => (String.ofList number).toNat?.map reduce
  | _ => if text = accept.render then some accept else text.toNat?.map goto

/-- **The text of an action tells which action it is.** -/
theorem ofText?_render (a : Action) : ofText? a.render = some a := by
  have hnumber : ∀ n : Nat, (toString n).toNat? = some n := Nat.toNat?_repr
  cases a with
  | shift n | reduce n =>
    rw [ofText?, render, String.toList_append]
    show Option.map _ (String.ofList (toString n).toList).toNat? = _
    rw [String.ofList_toList, hnumber, Option.map_some]
  | goto n =>
    have hdigit : ∀ {c : Char} {rest : List Char}, (toString n).toList = c :: rest →
        c.isDigit = true := fun h => Text.isDigit_of_mem_toString (h ▸ List.mem_cons_self)
    rw [ofText?, render]
    split
    · next h => exact absurd (hdigit h) (by decide)
    · next h => exact absurd (hdigit h) (by decide)
    · rw [if_neg, hnumber, Option.map_some]
      intro h
      exact absurd (hdigit (congrArg String.toList h)) (by decide)
  | accept => rfl

/-- The text of an action is made of letters and digits. -/
theorem isAlphanum_of_mem_render {a : Action} {c : Char} (h : c ∈ a.render.toList) :
    c.isAlphanum = true := by
  have hdigit : ∀ n : Nat, c ∈ (toString n).toList → c.isAlphanum = true := fun n h => by
    rw [Char.isAlphanum, Text.isDigit_of_mem_toString h, Bool.or_true]
  cases a with
  | shift n | reduce n =>
    rw [render, String.toList_append, List.mem_append] at h
    rcases h with h | h
    · obtain rfl := List.mem_singleton.1 h
      rfl
    · exact hdigit n h
  | goto n => exact hdigit n h
  | accept =>
    have haccept : accept.render.toList.all Char.isAlphanum = true := rfl
    exact List.all_eq_true.1 haccept c h

end Action

namespace ParseTable

variable {t : ParseTable} {g : Grammar} {q n : Nat} {x s : String} {fields : List String}

/-! ## What is written -/

/-- A text without characters that have a meaning in comma-separated text is a field as it
stands. -/
theorem csvField_of_plain (h : ∀ c ∈ s.toList, Text.IsPlainChar c) : csvField s = s := by
  rw [csvField, if_neg]
  rw [List.any_eq_true]
  rintro ⟨c, hc, hspecial⟩
  obtain ⟨hcomma, hnewline, hquote⟩ := h c hc
  simp [hcomma, hnewline, hquote] at hspecial

theorem csvField_toString (n : Nat) : csvField (toString n) = toString n :=
  csvField_of_plain fun c hc => Text.isPlainChar_of_isAlphanum <| by
    rw [Char.isAlphanum, Text.isDigit_of_mem_toString hc, Bool.or_true]

theorem csvField_cellText (row : Row) (x : String) :
    csvField (cellText row x) = cellText row x := by
  refine csvField_of_plain fun c hc => ?_
  rw [cellText] at hc
  split at hc
  · exact Text.isPlainChar_of_isAlphanum (Action.isAlphanum_of_mem_render hc)
  · cases hc

/-- The fields of the comma-separated text, record by record. -/
def records (t : ParseTable) : List (List String) :=
  ("STATE" :: t.columns) ::
    (Text.numberFrom 0 t.rows).map fun (n, row) => toString n :: t.columns.map (cellText row)

/-- A record is written with commas between its fields. -/
def recordLine (fields : List String) : String := String.intercalate "," (fields.map csvField)

theorem csv_eq (t : ParseTable) : t.csv = Text.unlines (t.records.map recordLine) := by
  have hrow : ∀ (n : Nat) (row : Row), recordLine (toString n :: t.columns.map (cellText row)) =
      String.intercalate "," (toString n :: t.columns.map (cellText row)) := by
    intro n row
    rw [recordLine, List.map_cons, csvField_toString, List.map_map]
    congr 2
    exact List.map_congr_left fun x _ => csvField_cellText row x
  rw [csv, records, List.map_cons, List.map_map]
  congr 2
  exact List.map_congr_left fun e _ => (hrow e.1 e.2).symm

/-! ## What is read back -/

/-- **A field is read back**, and the reader is not left between quotes. -/
theorem run_csvField (s : String) {r : Reading} (hstart : r.place = .start) :
    ∃ place ≠ Text.FieldPlace.quoted, r.run (csvField s).toList =
      some { r with field := s.toList.reverse ++ r.field, place := place } := by
  by_cases hplain : ∀ c ∈ s.toList, Text.IsPlainChar c
  · rw [csvField_of_plain hplain]
    exact Reading.run_plain hplain (.inl hstart)
  · refine ⟨.closing, nofun, ?_⟩
    have hspecial : (s.toList.any fun c => c == ',' || c == '"' || c == '\n') = true := by
      rw [not_forall₂] at hplain
      obtain ⟨c, hc, hspecial⟩ := hplain
      rw [List.any_eq_true]
      refine ⟨c, hc, ?_⟩
      rw [Text.IsPlainChar] at hspecial
      simp only [Bool.or_eq_true, beq_iff_eq]
      tauto
    rw [csvField, if_pos hspecial, String.toList_ofList]
    exact Reading.run_quoted s.toList hstart

/-- **A record is read back**, behind what has been read of it. -/
theorem run_recordLine (hne : fields ≠ []) (records : List (List String)) (before : List String) :
    Reading.run ⟨records, before, [], .start⟩ ((recordLine fields).toList ++ ['\n']) =
      some ⟨(before.reverse ++ fields) :: records, [], [], .start⟩ := by
  induction fields generalizing before with
  | nil => exact absurd rfl hne
  | cons s fields ih =>
    obtain ⟨place, hplace, hfield⟩ := run_csvField s (r := ⟨records, before, [], .start⟩) rfl
    cases fields with
    | nil =>
      have hline : (recordLine [s]).toList = (csvField s).toList := by
        rw [recordLine, String.toList_intercalate, List.map_singleton, List.map_singleton,
          List.intercalate_singleton]
      rw [hline, Reading.run_append, hfield, Option.bind_some, Reading.run_cons,
        Reading.step_newline hplace]
      simp [Reading.endRecord, Reading.recordSoFar, Reading.run_nil]
    | cons s' fields =>
      have hline : (recordLine (s :: s' :: fields)).toList =
          (csvField s).toList ++ ',' :: (recordLine (s' :: fields)).toList := by
        simp only [recordLine, String.toList_intercalate, List.map_cons,
          List.intercalate_cons_cons, List.append_assoc]
        rfl
      rw [hline, List.append_assoc, List.cons_append, Reading.run_append, hfield, Option.bind_some,
        Reading.run_cons, Reading.step_comma hplace, Option.bind_some, Reading.endField,
        ih (List.cons_ne_nil _ _)]
      simp [Reading.recordSoFar]

theorem run_recordLines {records : List (List String)} (hne : ∀ fields ∈ records, fields ≠ [])
    (before : List (List String)) :
    Reading.run ⟨before, [], [], .start⟩ (Text.unlines (records.map recordLine)).toList =
      some ⟨records.reverse ++ before, [], [], .start⟩ := by
  rw [Text.toList_unlines, List.flatMap_map]
  induction records generalizing before with
  | nil => rfl
  | cons fields records ih =>
    obtain ⟨hfields, hrecords⟩ := List.forall_mem_cons.1 hne
    rw [List.flatMap_cons, Reading.run_append, run_recordLine hfields, Option.bind_some,
      ih hrecords]
    simp

/-- **The comma-separated text of a table is read back.** -/
theorem readRecords?_csv (t : ParseTable) : Text.readRecords? t.csv = some t.records := by
  have hne : ∀ fields ∈ t.records, fields ≠ [] := by
    rw [records]
    refine List.forall_mem_cons.2 ⟨List.cons_ne_nil _ _, fun fields hfields => ?_⟩
    obtain ⟨e, -, rfl⟩ := List.mem_map.1 hfields
    exact List.cons_ne_nil _ _
  rw [Text.readRecords?, csv_eq, Reading.initial, run_recordLines hne]
  simp

/-! ## The field under a symbol -/

/-- The field of a state in the column under a symbol. What stands at the head of the first column
is no symbol, and the record behind the header is that of state 0. -/
def fieldUnder (records : List (List String)) (q : Nat) (x : String) : Option String :=
  match records with
  | [] => none
  | header :: states => states[q]?.bind fun fields => (header.tail.zip fields.tail).lookup x

/-- Under the symbols of the columns stand the texts of the cells. -/
theorem fieldUnder_records : fieldUnder t.records q x =
    if x ∈ t.columns then t.rows[q]?.map fun row => cellText row x else none := by
  show (((Text.numberFrom 0 t.rows).map _)[q]?).bind _ = _
  rw [List.getElem?_map, Text.getElem?_numberFrom, Option.map_map]
  cases t.rows[q]? with
  | none => rw [Option.map_none, Option.map_none, ite_self, Option.bind_none]
  | some row =>
    show (t.columns.zip (t.columns.map (cellText row))).lookup x = _
    exact List.lookup_zip_map

/-- The text of a cell tells its action. -/
theorem ofText?_cellText (row : Row) (x : String) :
    Action.ofText? (cellText row x) = row.get? x := by
  rw [cellText]
  cases row.get? x with
  | none =>
    have hempty : "".toNat? = none :=
      String.toNat?_eq_none (Bool.eq_false_iff.2 fun h => (String.isNat_iff.1 h).1 rfl)
    show "".toNat?.map Action.goto = none
    rw [hempty, Option.map_none]
  | some a => exact a.ofText?_render

/-! ## The columns of a grammar's table -/

/-- The nonterminals come in increasing order. -/
theorem exists_sorted_columns (hnodup : t.nonterminals.Nodup) :
    ∃ sorted : List String, t.columns = t.terminals ++ sorted ∧ sorted.Perm t.nonterminals ∧
      sorted.Pairwise (· < ·) := by
  have hle : ∀ a b : String, (!decide (b < a)) = true ↔ a ≤ b := fun a b => by
    rw [Bool.not_eq_true', decide_eq_false_iff_not]
    exact Iff.rfl
  have hperm := List.mergeSort_perm t.nonterminals fun a b => !decide (b < a)
  have hsorted : (t.nonterminals.mergeSort fun a b => !decide (b < a)).Pairwise
      fun a b => (!decide (b < a)) = true :=
    List.pairwise_mergeSort
      (fun a b c hab hbc => (hle a c).2 (String.le_trans ((hle a b).1 hab) ((hle b c).1 hbc)))
      (fun a b => Bool.or_eq_true_iff.2 ((String.le_total a b).imp (hle a b).2 (hle b a).2)) _
  refine ⟨_, rfl, hperm, (hsorted.and (hperm.nodup_iff.2 hnodup)).imp ?_⟩
  rintro a b ⟨hab, hne⟩
  exact (StrictTotal.lt_trichotomy a b).resolve_right fun h =>
    h.elim hne fun hba => (hle a b).1 hab hba

/-- No symbol has two columns: the end marker is not among the symbols of a grammar, and no terminal
heads a rule. -/
theorem nodup_columns (hg : g.Proper) : (ofGrammar g).columns.Nodup := by
  have hterminals : (ofGrammar g).terminals.Nodup := by
    refine List.nodup_append.2 ⟨g.terminals.nodup, List.nodup_singleton _, ?_⟩
    rintro x hx y hy rfl
    rw [List.mem_singleton.1 hy] at hx
    exact hg.not_isTerminal_endMarker (Grammar.mem_terminals_iff.1 hx)
  have hnonterminals : (ofGrammar g).nonterminals.Nodup := g.rules.nodup
  have hperm := List.mergeSort_perm (ofGrammar g).nonterminals fun a b => !decide (b < a)
  refine List.nodup_append.2 ⟨hterminals, hperm.nodup_iff.2 hnonterminals, ?_⟩
  rintro x hx y hy rfl
  have hnonterminal := Grammar.isNonterminal_iff.2 (hperm.mem_iff.1 hy)
  rw [isNonterminal_of_mem_terminals hg hx] at hnonterminal
  cases hnonterminal

theorem mem_columns : x ∈ t.columns ↔ x ∈ t.terminals ∨ x ∈ t.nonterminals := by
  rw [columns, List.mem_append, List.mem_mergeSort]

/-- All actions of a grammar's table are in its columns. -/
theorem mem_columns_of_action? {a : Action} (hg : g.Proper)
    (h : (ofGrammar g).action? q x = some a) :
    q < (ofGrammar g).size ∧ x ∈ (ofGrammar g).columns := by
  obtain ⟨i, hi, hasks⟩ := asks_of_action? h
  refine ⟨?_, mem_columns.2 (hasks.mem_columns hg hi)⟩
  rw [action?] at h
  obtain ⟨row, hrow, -⟩ := Option.bind_eq_some_iff.1 h
  exact (List.getElem?_eq_some_iff.1 hrow).1

/-- **The actions are found in the fields**, and where there is no field there is no action. -/
theorem ofText?_fieldUnder (hg : g.Proper) (q : Nat) (x : String) :
    (fieldUnder (ofGrammar g).records q x).bind Action.ofText? = (ofGrammar g).action? q x := by
  rw [fieldUnder_records]
  split
  · next hx =>
    rw [action?]
    cases (ofGrammar g).rows[q]? with
    | none => rfl
    | some row => exact ofText?_cellText row x
  · next hx =>
    cases h : (ofGrammar g).action? q x with
    | none => rfl
    | some a => exact absurd (mem_columns_of_action? hg h).2 hx

/-- In the columns, a field holds the text of the action, or is blank. -/
theorem fieldUnder_records_of_mem (hq : q < t.size) (hx : x ∈ t.columns) :
    fieldUnder t.records q x = some ((t.action? q x).elim "" Action.render) := by
  rw [fieldUnder_records, if_pos hx, action?, List.getElem?_eq_getElem hq, Option.map_some,
    Option.bind_some, cellText]
  cases t.rows[q].get? x <;> rfl

theorem length_records (t : ParseTable) : t.records.length = t.size + 1 := by
  rw [records, List.length_cons, List.length_map, ← List.length_map (f := Prod.snd),
    Text.map_snd_numberFrom, size]

theorem length_of_mem_records (h : fields ∈ t.records) :
    fields.length = t.columns.length + 1 := by
  rw [records, List.mem_cons] at h
  rcases h with rfl | h
  · rfl
  · obtain ⟨e, -, rfl⟩ := List.mem_map.1 h
    rw [List.length_cons, List.length_map]

theorem head?_records (hq : q < t.size) :
    t.records[q + 1]?.bind List.head? = some (toString q) := by
  rw [records, List.getElem?_cons_succ, List.getElem?_map, Text.getElem?_numberFrom,
    List.getElem?_eq_getElem hq, Nat.zero_add]
  rfl

/-- **The comma-separated text of a grammar's table loses nothing.** It is read as a header and one
record for each state, all of one length. The header names the columns: the terminals of the table,
and its nonterminals in increasing order, each once. Under a symbol stands the text of the action
of the state, or nothing where there is none, so all actions are found again; and none lies outside
the columns. -/
theorem csv_spec {text : String} (hread : Grammar.read text = .ok g) :
    ∃ records sorted, Text.readRecords? (ofGrammar g).csv = some records ∧
      records.length = (ofGrammar g).size + 1 ∧
      (∀ fields ∈ records, fields.length = ((ofGrammar g).terminals ++ sorted).length + 1) ∧
      records.head? = some ("STATE" :: ((ofGrammar g).terminals ++ sorted)) ∧
      sorted.Perm (ofGrammar g).nonterminals ∧ sorted.Pairwise (· < ·) ∧
      ((ofGrammar g).terminals ++ sorted).Nodup ∧
      (∀ q < (ofGrammar g).size, records[q + 1]?.bind List.head? = some (toString q)) ∧
      (∀ q < (ofGrammar g).size, ∀ x ∈ (ofGrammar g).terminals ++ sorted,
        fieldUnder records q x = some (((ofGrammar g).action? q x).elim "" Action.render)) ∧
      (∀ q x, (fieldUnder records q x).bind Action.ofText? = (ofGrammar g).action? q x) ∧
      ∀ q x a, (ofGrammar g).action? q x = some a →
        q < (ofGrammar g).size ∧ x ∈ (ofGrammar g).terminals ++ sorted := by
  have hg := Grammar.proper_of_read hread
  obtain ⟨sorted, hcolumns, hperm, hsorted⟩ :=
    exists_sorted_columns (t := ofGrammar g) g.rules.nodup
  have hnodup := nodup_columns hg
  have hfield := fun q hq x hx =>
    fieldUnder_records_of_mem (t := ofGrammar g) (q := q) (x := x) hq hx
  have haction := fun q x a h => mem_columns_of_action? (q := q) (x := x) (a := a) hg h
  rw [hcolumns] at hnodup
  simp only [hcolumns] at hfield haction
  refine ⟨(ofGrammar g).records, sorted, readRecords?_csv _, length_records _, ?_, ?_, hperm,
    hsorted, hnodup, fun q hq => head?_records hq, hfield, ofText?_fieldUnder hg, haction⟩
  · rw [← hcolumns]
    exact fun fields hfields => length_of_mem_records hfields
  · rw [← hcolumns]
    rfl

/-- Symbols that are made of what sets fields apart, one that is named as the first column, and
nonterminals that are not declared in order. -/
def delimiters : Grammar :=
  ⟨"S", ⟨[("S", [["S", ",", "\"x\""], ["STATE"]]), ("B", [["\",\""]])], by decide⟩⟩

/-- The comma is shifted in state 1, and in the column named as the first one stands an action. -/
theorem csv_spec_delimiters :
    Grammar.read "S ::= S , \"x\" | STATE\nB ::= \",\"" = .ok delimiters ∧
      ∃ records, Text.readRecords? (ofGrammar delimiters).csv = some records ∧
        records.length = 6 ∧
        records.head? = some ["STATE", "\",\"", "\"x\"", ",", "STATE", "$", "B", "S"] ∧
        fieldUnder records 1 "," = some "s3" ∧ fieldUnder records 0 "STATE" = some "s2" ∧
        fieldUnder records 1 "\",\"" = some "" := by
  have hread : Grammar.read "S ::= S , \"x\" | STATE\nB ::= \",\"" = .ok delimiters := by
    decide +kernel
  obtain ⟨records, sorted, hrecords, hlength, -, hheader, hperm, hsorted, -, -, hfield, -, -⟩ :=
    csv_spec hread
  have hsize : (ofGrammar delimiters).size = 5 := by decide +kernel
  have hterminals : (ofGrammar delimiters).terminals = ["\",\"", "\"x\"", ",", "STATE", "$"] := by
    decide +kernel
  have hcolumns : sorted = ["B", "S"] := by
    refine List.Perm.eq_of_pairwise (fun a b _ _ hab hba => ?_) hsorted (by decide) ?_
    · exact absurd hba (StrictTotal.lt_asymm hab)
    · exact hperm.trans (List.Perm.swap ..)
  rw [hcolumns, hterminals] at hheader hfield
  refine ⟨hread, records, hrecords, hlength.trans (by rw [hsize]), hheader, ?_, ?_, ?_⟩
  · rw [hfield 1 (by rw [hsize]; decide) "," (by decide)]
    decide +kernel
  · rw [hfield 0 (by rw [hsize]; decide) "STATE" (by decide)]
    decide +kernel
  · rw [hfield 1 (by rw [hsize]; decide) "\",\"" (by decide)]
    decide +kernel

end ParseTable

end Frontend
