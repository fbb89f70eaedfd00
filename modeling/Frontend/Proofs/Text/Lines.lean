import Frontend.Proofs.Lists
import Frontend.Text.Lines

/-!
# Written lines and fields are read back

Lines that are written one after the other are read back one by one, each up to a carriage
return at its end (`lines_append`). Fields joined by separators come apart again
(`fields_append`), and a cut finds the separator that was put in if what stands on its other
side holds none. Trimming leaves a text alone that holds no blank character, and does not see
blank characters that are put behind a text.
-/

namespace Frontend.Text

variable {c sep : Char} {x y : List Char}

/-! ## Numbered lists -/

section Numbered

variable {α β : Type}

theorem map_snd_numberFrom (n : Nat) (l : List α) : (numberFrom n l).map Prod.snd = l := by
  induction l generalizing n with
  | nil => rfl
  | cons a l ih => rw [numberFrom, List.map_cons, ih]

theorem getElem?_numberFrom (n k : Nat) (l : List α) :
    (numberFrom n l)[k]? = l[k]?.map fun a => (n + k, a) := by
  induction l generalizing n k with
  | nil => rfl
  | cons a l ih =>
    cases k with
    | zero => rfl
    | succ k =>
      rw [numberFrom, List.getElem?_cons_succ, ih, List.getElem?_cons_succ, Nat.add_assoc,
        Nat.add_comm 1 k]

/-- Pairs whose first parts are counted through from `n` are their second parts, numbered. -/
theorem eq_numberFrom {l : List (Nat × α)} {n : Nat}
    (h : l.map Prod.fst = List.range' n l.length) : l = numberFrom n (l.map Prod.snd) := by
  induction l generalizing n with
  | nil => rfl
  | cons x l ih =>
    rw [List.map_cons, List.length_cons, List.range'_succ, List.cons.injEq] at h
    rw [List.map_cons, numberFrom, ← ih h.2, ← h.1]

/-- If what is listed for a number has it as its key, the entries of a key are what is listed for
it. -/
theorem filter_flatMap_numberFrom {f : Nat × α → List β} {key : β → Nat}
    (hf : ∀ e, ∀ b ∈ f e, key b = e.1) (n m : Nat) (l : List α) :
    ((numberFrom n l).flatMap f).filter (fun b => key b = m) =
      if n ≤ m then (l[m - n]?.map fun a => f (m, a)).getD [] else [] := by
  induction l generalizing n with
  | nil => simp [numberFrom]
  | cons a l ih =>
    rw [numberFrom, List.flatMap_cons, List.filter_append, ih]
    by_cases heq : n = m
    · subst heq
      rw [List.filter_eq_self.2 fun b hb => decide_eq_true (hf (n, a) b hb),
        if_neg (Nat.not_succ_le_self n), if_pos (Nat.le_refl n), Nat.sub_self, List.append_nil]
      rfl
    · rw [List.filter_eq_nil_iff.2 fun b hb => by simp [hf (n, a) b hb, heq], List.nil_append]
      by_cases hlt : n + 1 ≤ m
      · rw [if_pos hlt, if_pos (by omega), show m - n = m - (n + 1) + 1 by omega,
          List.getElem?_cons_succ]
      · rw [if_neg hlt, if_neg (by omega)]

end Numbered

/-! ## Lines -/

theorem toList_unlines (ls : List String) :
    (unlines ls).toList = ls.flatMap fun l => l.toList ++ ['\n'] := by
  rw [unlines, String.toList_join, List.flatMap_map]
  exact List.flatMap_congr fun l _ => String.toList_append

/-- A line is read back as it was written, up to a carriage return at its end. -/
theorem lines_append (h : '\n' ∉ x) (rest : List Char) :
    ∃ line, lines (x ++ '\n' :: rest) = line :: lines rest ∧ (line = x ∨ line ++ ['\r'] = x) := by
  induction x with
  | nil => exact ⟨[], rfl, .inl rfl⟩
  | cons c x ih =>
    obtain ⟨hc, hx⟩ := not_or.1 (List.mem_cons.not.1 h)
    obtain ⟨line, hline, hend⟩ := ih hx
    -- Only a carriage return that nothing follows on its line belongs to the end of the line.
    by_cases hreturn : c = '\r' ∧ x = []
    · obtain ⟨rfl, rfl⟩ := hreturn
      exact ⟨[], rfl, .inr rfl⟩
    · refine ⟨c :: line, ?_, hend.imp (congrArg (c :: ·)) (congrArg (c :: ·))⟩
      rw [List.cons_append, lines, hline]
      · exact fun hnewline => hc hnewline.symm
      · rintro more rfl hmore
        cases x with
        | nil => exact hreturn ⟨rfl, rfl⟩
        | cons d x => exact hx (by rw [(List.cons.inj hmore).1]; exact List.mem_cons_self)

/-- Lines without the carriage returns at their ends are read back as they were written. -/
theorem map_rdropWhile_lines {ls : List (List Char)} (h : ∀ l ∈ ls, '\n' ∉ l) :
    (lines (ls.flatMap (· ++ ['\n']))).map (List.rdropWhile (· == '\r')) =
      ls.map (List.rdropWhile (· == '\r')) := by
  induction ls with
  | nil => rfl
  | cons l ls ih =>
    obtain ⟨line, hline, hend⟩ :=
      lines_append (h l List.mem_cons_self) (ls.flatMap (· ++ ['\n']))
    rw [List.flatMap_cons, List.append_assoc, List.singleton_append, hline, List.map_cons,
      List.map_cons, ih fun l hl => h l (List.mem_cons_of_mem _ hl)]
    congr 1
    obtain rfl | rfl := hend
    · rfl
    · exact (List.rdropWhile_concat_pos _ _ _ rfl).symm

/-- Lines that do not end in carriage returns are read back as they were written. -/
theorem lines_flatMap {ls : List (List Char)} (h : ∀ l ∈ ls, '\n' ∉ l)
    (hend : ∀ l ∈ ls, l.getLast? ≠ some '\r') : lines (ls.flatMap (· ++ ['\n'])) = ls := by
  induction ls with
  | nil => rfl
  | cons l ls ih =>
    obtain ⟨hl, hls⟩ := List.forall_mem_cons.1 h
    obtain ⟨hlast, hlasts⟩ := List.forall_mem_cons.1 hend
    obtain ⟨line, hline, rfl | rfl⟩ := lines_append hl (ls.flatMap (· ++ ['\n']))
    · rw [List.flatMap_cons, List.append_assoc, List.singleton_append, hline, ih hls hlasts]
    · exact absurd List.getLast?_concat hlast

/-- A line feed is the end of a line and is in none. -/
theorem newline_not_mem_of_mem_lines {text : List Char} : ∀ l ∈ lines text, '\n' ∉ l := by
  fun_induction lines text with
  | case1 => exact nofun
  | case2 rest ih => exact List.forall_mem_cons.2 ⟨List.not_mem_nil, ih⟩
  | case3 rest ih => exact List.forall_mem_cons.2 ⟨List.not_mem_nil, ih⟩
  | case4 c rest hnewline _ hrest ih =>
    intro l hl
    rw [List.mem_singleton.1 hl, List.mem_singleton]
    exact fun heq => hnewline heq.symm
  | case5 c rest hnewline _ line more hrest ih =>
    rw [hrest] at ih
    obtain ⟨hline, hmore⟩ := List.forall_mem_cons.1 ih
    refine List.forall_mem_cons.2 ⟨?_, hmore⟩
    rw [List.mem_cons, not_or]
    exact ⟨fun heq => hnewline heq.symm, hline⟩

/-! ## Fields -/

theorem fields_ne_nil : fields sep x ≠ [] := by
  cases x with
  | nil => exact List.cons_ne_nil _ _
  | cons c x =>
    rw [fields]
    split
    · exact List.cons_ne_nil _ _
    · split <;> exact List.cons_ne_nil _ _

theorem fields_of_not_mem (h : sep ∉ x) : fields sep x = [x] := by
  induction x with
  | nil => rfl
  | cons c x ih =>
    obtain ⟨hc, hx⟩ := not_or.1 (List.mem_cons.not.1 h)
    rw [fields, if_neg (Ne.symm hc), ih hx]

/-- What stands before a separator and what stands after it fall into fields apart. -/
theorem fields_append (x y : List Char) :
    fields sep (x ++ sep :: y) = fields sep x ++ fields sep y := by
  induction x with
  | nil => exact if_pos rfl
  | cons c x ih =>
    rw [List.cons_append, fields, fields, ih]
    split
    · rfl
    · cases h : fields sep x with
      | nil => exact absurd h fields_ne_nil
      | cons field more => rfl

/-- A text without separators goes on with the last field. -/
theorem fields_append_of_not_mem (x : List Char) (hy : sep ∉ y) :
    ∃ before last, fields sep x = before ++ [last] ∧
      fields sep (x ++ y) = before ++ [last ++ y] := by
  induction x with
  | nil => exact ⟨[], [], rfl, fields_of_not_mem hy⟩
  | cons c x ih =>
    obtain ⟨before, last, hx, hxy⟩ := ih
    rw [List.cons_append, fields, fields, hx, hxy]
    split
    · exact ⟨[] :: before, last, rfl, rfl⟩
    · cases before with
      | nil => exact ⟨[], c :: last, rfl, rfl⟩
      | cons field more => exact ⟨(c :: field) :: more, last, rfl, rfl⟩

/-! ## Cuts -/

theorem cutFirst?_append (h : sep ∉ x) (y : List Char) :
    cutFirst? sep (x ++ sep :: y) = some (x, y) := by
  induction x with
  | nil => exact if_pos rfl
  | cons c x ih =>
    obtain ⟨hc, hx⟩ := not_or.1 (List.mem_cons.not.1 h)
    rw [List.cons_append, cutFirst?, if_neg (Ne.symm hc), ih hx]
    rfl

/-- A cut at the first separator leaves none before it. -/
theorem cutFirst?_eq_some_iff {z : List Char} :
    cutFirst? sep z = some (x, y) ↔ z = x ++ sep :: y ∧ sep ∉ x := by
  refine ⟨fun h => ?_, fun ⟨hz, hx⟩ => hz ▸ cutFirst?_append hx y⟩
  induction z generalizing x with
  | nil => cases h
  | cons c z ih =>
    rw [cutFirst?] at h
    split at h
    · next hc =>
      obtain ⟨rfl, rfl⟩ := Prod.mk.inj (Option.some.inj h)
      exact ⟨congrArg (· :: z) hc, List.not_mem_nil⟩
    · next hc =>
      obtain ⟨⟨before, after⟩, hcut, heq⟩ := Option.map_eq_some_iff.1 h
      obtain ⟨rfl, rfl⟩ := Prod.mk.inj heq
      obtain ⟨rfl, hbefore⟩ := ih hcut
      exact ⟨rfl, List.not_mem_cons_of_ne_of_not_mem (Ne.symm hc) hbefore⟩

theorem cutLast?_of_not_mem (h : sep ∉ x) : cutLast? sep x = none := by
  induction x with
  | nil => rfl
  | cons c x ih =>
    obtain ⟨hc, hx⟩ := not_or.1 (List.mem_cons.not.1 h)
    rw [cutLast?, ih hx]
    exact if_neg (Ne.symm hc)

theorem cutLast?_append (x : List Char) (h : sep ∉ y) :
    cutLast? sep (x ++ sep :: y) = some (x, y) := by
  induction x with
  | nil =>
    rw [List.nil_append, cutLast?, cutLast?_of_not_mem h]
    exact if_pos rfl
  | cons c x ih => rw [List.cons_append, cutLast?, ih]

/-- A cut at the last separator leaves none behind it. -/
theorem cutLast?_eq_some_iff {z : List Char} :
    cutLast? sep z = some (x, y) ↔ z = x ++ sep :: y ∧ sep ∉ y := by
  refine ⟨fun h => ?_, fun ⟨hz, hy⟩ => hz ▸ cutLast?_append x hy⟩
  by_cases hmem : sep ∈ z
  · obtain ⟨after, before, hreverse, hafter⟩ :=
      List.eq_append_cons_of_mem (List.mem_reverse.2 hmem)
    obtain rfl : z = before.reverse ++ sep :: after.reverse := by
      rw [← List.reverse_reverse z, hreverse]
      simp
    rw [← List.mem_reverse] at hafter
    rw [cutLast?_append _ hafter] at h
    obtain ⟨rfl, rfl⟩ := Prod.mk.inj (Option.some.inj h)
    exact ⟨rfl, hafter⟩
  · rw [cutLast?_of_not_mem hmem] at h
    cases h

theorem stripFirst?_eq_some_iff : stripFirst? c x = some y ↔ x = c :: y := by
  cases x with
  | nil => exact ⟨nofun, nofun⟩
  | cons d x =>
    rw [stripFirst?]
    split
    · next h => rw [h, Option.some_inj, List.cons_inj_right]
    · next h => exact ⟨nofun, fun hcons => absurd (List.cons.inj hcons).1 h⟩

theorem stripLast?_eq_some_iff : stripLast? c x = some y ↔ x = y ++ [c] := by
  rw [stripLast?, Option.map_eq_some_iff]
  simp only [stripFirst?_eq_some_iff]
  constructor
  · rintro ⟨z, hz, rfl⟩
    rw [← List.reverse_reverse x, hz, List.reverse_cons]
  · rintro rfl
    exact ⟨y.reverse, by rw [List.reverse_append]; rfl, List.reverse_reverse y⟩

/-! ## Blank characters -/

theorem trim_of_not_blank (h : ∀ c ∈ x, isBlank c = false) : trim x = x := by
  have hstart : ∀ l : List Char, (∀ c ∈ l, isBlank c = false) → l.dropWhile isBlank = l := by
    intro l hl
    cases l with
    | nil => rfl
    | cons c l => exact List.dropWhile_cons_of_neg (by simp [hl c List.mem_cons_self])
  rw [trim, trimEnd, hstart x h, hstart x.reverse fun c hc => h c (List.mem_reverse.1 hc),
    List.reverse_reverse]

/-- Trimming takes nothing off a text that neither begins nor ends with a blank character. -/
theorem trim_of_ends {d : Char} (hc : isBlank c = false) (hd : isBlank d = false)
    (x : List Char) : trim (c :: (x ++ [d])) = c :: (x ++ [d]) := by
  rw [trim, trimEnd, List.dropWhile_cons_of_neg (by simp [hc]), ← List.cons_append,
    List.reverse_append, List.reverse_singleton, List.singleton_append,
    List.dropWhile_cons_of_neg (by simp [hd]), List.reverse_cons, List.reverse_reverse]

theorem mem_of_mem_trim (h : c ∈ trim x) : c ∈ x :=
  (List.dropWhile_sublist _).mem <| List.mem_reverse.1 <|
    (List.dropWhile_sublist _).mem <| List.mem_reverse.1 h

/-- Blank characters behind a text are trimmed away. -/
theorem trim_append_blank (x : List Char) (hy : ∀ c ∈ y, isBlank c = true) :
    trim (x ++ y) = trim x := by
  rw [trim, trim, List.dropWhile_append, List.dropWhile_eq_nil_iff.2 hy]
  split
  · next h => rw [List.isEmpty_iff.1 h]
  · rw [trimEnd, List.reverse_append, List.dropWhile_append_of_pos
      fun c hc => hy c (List.mem_reverse.1 hc)]
    rfl

theorem isBlankText_eq_false_iff : isBlankText x = false ↔ ∃ c ∈ x, isBlank c = false := by
  rw [isBlankText, List.all_eq_false]
  simp only [Bool.not_eq_true]

/-- Nothing is left of a text by trimming exactly if it holds blank characters only. -/
theorem isEmpty_trim (x : List Char) : (trim x).isEmpty = isBlankText x := by
  rw [Bool.eq_iff_iff, List.isEmpty_iff, trim, trimEnd, List.reverse_eq_nil_iff,
    List.dropWhile_eq_nil_iff, isBlankText, List.all_eq_true]
  simp only [List.mem_reverse]
  refine ⟨fun h c hc => ?_, fun h c hc => h c ((List.dropWhile_sublist _).mem hc)⟩
  rw [← List.takeWhile_append_dropWhile (p := isBlank) (l := x), List.mem_append] at hc
  exact hc.elim List.mem_takeWhile_imp (h c)

/-- Carriage returns at the end of a text are trimmed off with it. -/
theorem trim_rdropWhile (x : List Char) : trim (x.rdropWhile (· == '\r')) = trim x := by
  conv_rhs => rw [← List.rdropWhile_append_rtakeWhile (p := (· == '\r')) (l := x)]
  exact (trim_append_blank _ fun c hc => List.eq_of_mem_rtakeWhile hc ▸ rfl).symm

/-- Carriage returns at the end of a text do not decide whether it is blank. -/
theorem isBlankText_rdropWhile (x : List Char) :
    isBlankText (x.rdropWhile (· == '\r')) = isBlankText x := by
  conv_rhs => rw [← List.rdropWhile_append_rtakeWhile (p := (· == '\r')) (l := x), isBlankText,
    List.all_append]
  have hblank : (x.rtakeWhile (· == '\r')).all isBlank = true :=
    List.all_eq_true.2 fun c hc => List.eq_of_mem_rtakeWhile hc ▸ rfl
  rw [hblank, Bool.and_true]
  rfl

/-- A text holds blank characters only exactly if its lines do. -/
theorem all_isBlankText_lines (text : List Char) :
    (lines text).all isBlankText = isBlankText text := by
  have hnewline : isBlank '\n' = true := rfl
  have hreturn : isBlank '\r' = true := rfl
  fun_induction lines text with
  | case1 => rfl
  | case2 rest ih => simp [ih, isBlankText, hnewline]
  | case3 rest ih => simp [ih, isBlankText, hnewline, hreturn]
  | case4 c rest _ _ hrest ih =>
    rw [hrest] at ih
    show ((isBlank c && true) && true) = (isBlank c && isBlankText rest)
    rw [← ih, Bool.and_true]
    rfl
  | case5 c rest _ _ line more hrest ih =>
    rw [hrest] at ih
    show ((isBlank c && isBlankText line) && more.all isBlankText) =
      (isBlank c && isBlankText rest)
    rw [← ih, Bool.and_assoc]
    rfl

end Frontend.Text
