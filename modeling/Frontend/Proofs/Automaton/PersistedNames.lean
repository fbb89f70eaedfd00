import Frontend.Automaton.Persisted
import Frontend.Proofs.Automaton.Renaming
import Frontend.Proofs.Ordered
import Frontend.Proofs.Text.Digits
import Frontend.Proofs.Text.Lines
import Mathlib.Data.List.Nodup

/-!
# The names of the persisted form

A name made of a token and a count tells both (`tokenName_inj`), and the token is found in it
whatever the token looks like (`tokenOfName_tokenName`); a plain name has no token. So the
names of the persisted form tell the states apart (`separates_persistedName`) and say which
token each final state has (`tokenOfName_persistedName`).
-/

namespace Frontend.Automaton

variable {a : Automaton} {s t token : String} {n m : Nat}

/-! ## Writable texts -/

/-- A writable text can stand between commas and is not touched by trimming. -/
theorem isWritable_iff : isWritable token = true ↔
    token.toList ≠ [] ∧ ∀ c ∈ token.toList, c ≠ ',' ∧ Text.isBlank c = false := by
  simp [isWritable]

theorem comma_not_mem (h : isWritable token = true) : ',' ∉ token.toList :=
  fun hmem => ((isWritable_iff.1 h).2 _ hmem).1 rfl

theorem not_mem_of_isWritable {c : Char} (h : isWritable token = true)
    (hc : Text.isBlank c = true) : c ∉ token.toList :=
  fun hmem => Bool.false_ne_true (((isWritable_iff.1 h).2 c hmem).2.symm.trans hc)

theorem trim_of_isWritable (h : isWritable token = true) :
    Text.trim token.toList = token.toList :=
  Text.trim_of_not_blank fun c hc => ((isWritable_iff.1 h).2 c hc).2

theorem isBlankText_of_isWritable (h : isWritable token = true) :
    Text.isBlankText token.toList = false := by
  obtain ⟨hne, hchars⟩ := isWritable_iff.1 h
  obtain ⟨c, hc⟩ := List.exists_mem_of_ne_nil _ hne
  exact Text.isBlankText_eq_false_iff.2 ⟨c, hc, (hchars c hc).2⟩

/-- What is put behind a writable text must be free of commas and blank characters as well. -/
theorem isWritable_append (ht : isWritable token = true)
    (hs : ∀ c ∈ s.toList, c ≠ ',' ∧ Text.isBlank c = false) : isWritable (token ++ s) = true := by
  obtain ⟨hne, hchars⟩ := isWritable_iff.1 ht
  rw [isWritable_iff, String.toList_append]
  refine ⟨List.append_ne_nil_of_left_ne_nil hne _, fun c hc => ?_⟩
  exact (List.mem_append.1 hc).elim (hchars c) (hs c)

theorem isWritable_append_toString (ht : isWritable token = true) :
    isWritable (token ++ toString n) = true :=
  isWritable_append ht fun _ hc =>
    have hdigit := Text.isDigit_of_mem_toString hc
    ⟨Text.ne_of_test hdigit rfl, Text.isBlank_of_isDigit hdigit⟩

/-! ## Plain names -/

theorem isPlainName_append_toString : isPlainName ("q" ++ toString n).toList = true := by
  rw [String.toList_append]
  exact Text.digits_toString

theorem tokenOfName_plain : tokenOfName ("q" ++ toString n).toList = none :=
  if_pos isPlainName_append_toString

theorem plainName_inj (h : "q" ++ toString n = "q" ++ toString m) : n = m :=
  Nat.repr_injective ((String.append_right_inj "q").1 h)

/-! ## Names of tokens -/

theorem not_isPlainName_of_mark {x : List Char} (h : '#' ∈ x) : isPlainName x = false := by
  rw [Bool.eq_false_iff]
  intro hplain
  cases x with
  | nil => cases h
  | cons c digits =>
    by_cases hc : c = 'q'
    · subst hc
      have hdigits := (Bool.and_eq_true_iff.1 hplain).2
      cases h with
      | tail _ h => exact absurd (List.all_eq_true.1 hdigits _ h) (by decide)
    · unfold isPlainName at hplain
      split at hplain
      · next heq => exact hc (List.cons.inj heq).1
      · cases hplain

/-- **The token is found in a name that was made of it**, whatever the token looks like. -/
theorem tokenOfName_tokenName (token : String) (n : Nat) :
    tokenOfName (tokenName token n).toList = some token.toList := by
  rw [tokenName]
  split
  · next h =>
    -- Without its count a token has no mark, so nothing is taken for a count.
    simp only [Bool.and_eq_true, Bool.not_eq_true', decide_eq_true_iff,
      List.contains_eq_mem, decide_eq_false_iff_not] at h
    obtain ⟨⟨-, hplain⟩, hmark⟩ := h
    rw [tokenOfName, hplain, Text.cutLast?_of_not_mem hmark]
    rfl
  · -- The count is made of digits, so the last mark is the one in front of it.
    have hname : (token ++ "#" ++ toString n).toList =
        token.toList ++ '#' :: (toString n).toList := by
      simp [String.toList_append]
    have hmark : '#' ∉ (toString n).toList :=
      fun hmem => Text.ne_of_test (Text.isDigit_of_mem_toString hmem) rfl rfl
    rw [hname, tokenOfName, not_isPlainName_of_mark (by simp), Text.cutLast?_append _ hmark]
    exact if_pos Text.digits_toString

/-- A name tells both its token and its count. -/
theorem tokenName_inj {token' : String} (h : tokenName token n = tokenName token' m) :
    token = token' ∧ n = m := by
  have htoken : token = token' := by
    have := tokenOfName_tokenName token n
    rw [h, tokenOfName_tokenName] at this
    exact String.toList_inj.1 (Option.some.inj this).symm
  subst htoken
  refine ⟨rfl, ?_⟩
  have hcount : ∀ k : Nat, token ≠ token ++ "#" ++ toString k := by
    intro k hk
    have := congrArg String.length hk
    simp only [String.length_append, show "#".length = 1 from rfl] at this
    omega
  rw [tokenName, tokenName] at h
  split at h
  · next hn =>
    split at h
    · next hm =>
      simp only [Bool.and_eq_true, decide_eq_true_iff] at hn hm
      rw [hn.1.1, hm.1.1]
    · exact absurd h (hcount m)
  · split at h
    · exact absurd h.symm (hcount n)
    · exact Nat.repr_injective ((String.append_right_inj _).1 h)

theorem isWritable_tokenName (h : isWritable token = true) :
    isWritable (tokenName token n) = true := by
  rw [tokenName]
  split
  · exact h
  · refine isWritable_append_toString (isWritable_append h fun c hc => ?_)
    rw [List.mem_singleton.1 (show c ∈ ['#'] from hc)]
    decide

/-! ## The names of all states -/

section TokenNames

variable {earlier : List String} {l : List (String × String)} {name : String}

theorem map_fst_tokenNames : (tokenNames earlier l).map Prod.fst = l.map Prod.fst := by
  induction l generalizing earlier with
  | nil => rfl
  | cons e l ih => rw [tokenNames, List.map_cons, List.map_cons, ih]

/-- A name is made of the token of its state and a count above that of the tokens before. -/
theorem exists_of_mem_tokenNames (h : (s, name) ∈ tokenNames earlier l) :
    ∃ token n, (s, token) ∈ l ∧ earlier.count token < n ∧ name = tokenName token n := by
  induction l generalizing earlier with
  | nil => cases h
  | cons e l ih =>
    rcases List.mem_cons.1 h with h | h
    · obtain ⟨rfl, rfl⟩ := Prod.mk.inj h
      exact ⟨e.2, _, List.mem_cons_self, Nat.lt_succ_self _, rfl⟩
    · obtain ⟨token, n, hmem, hcount, hname⟩ := ih h
      exact ⟨token, n, .tail _ hmem, List.count_le_count_cons.trans_lt hcount, hname⟩

theorem nodup_tokenNames : ((tokenNames earlier l).map Prod.snd).Nodup := by
  induction l generalizing earlier with
  | nil => exact List.nodup_nil
  | cons e l ih =>
    refine List.nodup_cons.2 ⟨fun h => ?_, ih⟩
    -- A later name with the same token has a higher count.
    obtain ⟨⟨s, name⟩, hmem, hname⟩ := List.mem_map.1 h
    obtain ⟨token, n, -, hcount, rfl⟩ := exists_of_mem_tokenNames hmem
    obtain ⟨rfl, rfl⟩ := tokenName_inj hname
    rw [List.count_cons_self] at hcount
    exact Nat.lt_irrefl _ hcount

end TokenNames

section PlainNames

variable {l : List String} {name : String}

theorem map_fst_plainNames : (plainNames n l).map Prod.fst = l := by
  induction l generalizing n with
  | nil => rfl
  | cons s l ih => rw [plainNames, List.map_cons, ih]

theorem exists_of_mem_plainNames (h : (s, name) ∈ plainNames n l) :
    ∃ k, n ≤ k ∧ name = "q" ++ toString k := by
  induction l generalizing n with
  | nil => cases h
  | cons t l ih =>
    rcases List.mem_cons.1 h with h | h
    · exact ⟨n, le_rfl, (Prod.mk.inj h).2⟩
    · obtain ⟨k, hk, hname⟩ := ih h
      exact ⟨k, by omega, hname⟩

theorem nodup_plainNames : ((plainNames n l).map Prod.snd).Nodup := by
  induction l generalizing n with
  | nil => exact List.nodup_nil
  | cons s l ih =>
    refine List.nodup_cons.2 ⟨fun h => ?_, ih⟩
    obtain ⟨⟨s, name⟩, hmem, hname⟩ := List.mem_map.1 h
    obtain ⟨k, hk, rfl⟩ := exists_of_mem_plainNames hmem
    have := plainName_inj hname
    omega

end PlainNames

/-- The final states that have a token, with it. -/
def recognisers (a : Automaton) : List (String × String) :=
  a.finals.toList.filterMap fun s => (a.tokens.get? s).map fun t => (s, t)

/-- The states that are not named after a token. -/
def plainStates (a : Automaton) : List String :=
  a.states.toList.filter fun s => decide (s ∉ (tokenNames [] a.recognisers).map Prod.fst)

/-- All states with their names. -/
def namings (a : Automaton) : List (String × String) :=
  tokenNames [] a.recognisers ++ plainNames 0 a.plainStates

/-- The name that a state has in the persisted form. -/
def persistedName (a : Automaton) (s : String) : String := a.persistedNames.getD s s

theorem mem_recognisers : (s, token) ∈ a.recognisers ↔
    s ∈ a.finals ∧ a.tokens.get? s = some token := by
  rw [recognisers, List.mem_filterMap]
  constructor
  · intro h
    obtain ⟨t, ht, h⟩ := h
    obtain ⟨token', htoken, h⟩ := Option.map_eq_some_iff.1 h
    obtain ⟨rfl, rfl⟩ := Prod.mk.inj h
    exact ⟨ht, htoken⟩
  · intro h
    exact ⟨s, h.1, by rw [h.2]; rfl⟩

theorem mem_map_fst_recognisers :
    s ∈ a.recognisers.map Prod.fst ↔ s ∈ a.finals ∧ ∃ token, a.tokens.get? s = some token := by
  rw [List.mem_map]
  constructor
  · intro h
    obtain ⟨⟨s, token⟩, hmem, rfl⟩ := h
    exact (mem_recognisers.1 hmem).imp_right fun h => ⟨token, h⟩
  · intro h
    obtain ⟨hs, token, htoken⟩ := h
    exact ⟨(s, token), mem_recognisers.2 ⟨hs, htoken⟩, rfl⟩

theorem mem_plainStates :
    s ∈ a.plainStates ↔ s ∈ a.states ∧ ¬ s ∈ a.recognisers.map Prod.fst := by
  rw [plainStates, List.mem_filter, decide_eq_true_iff, map_fst_tokenNames]
  rfl

theorem nodup_map_fst_namings : (a.namings.map Prod.fst).Nodup := by
  rw [namings, List.map_append, map_fst_tokenNames, map_fst_plainNames, List.nodup_append]
  refine ⟨?_, a.states.nodup.filter _, ?_⟩
  · have hfst : a.recognisers.map Prod.fst =
        a.finals.toList.filter fun s => (a.tokens.get? s).isSome := by
      rw [recognisers, List.map_filterMap, ← List.filterMap_eq_filter]
      refine List.filterMap_congr fun s _ => ?_
      cases h : a.tokens.get? s <;> simp [Option.guard, h]
    exact hfst ▸ a.finals.nodup.filter _
  · rintro s hs t ht rfl
    exact (mem_plainStates.1 ht).2 hs

theorem nodup_map_snd_namings : (a.namings.map Prod.snd).Nodup := by
  rw [namings, List.map_append, List.nodup_append]
  refine ⟨nodup_tokenNames, nodup_plainNames, ?_⟩
  rintro x hx y hy rfl
  obtain ⟨⟨s, name⟩, hmem, rfl⟩ := List.mem_map.1 hx
  obtain ⟨⟨t, name'⟩, hmem', rfl⟩ := List.mem_map.1 hy
  -- One name has a token and the other has none.
  obtain ⟨token, n, -, -, rfl⟩ := exists_of_mem_tokenNames hmem
  obtain ⟨k, -, hname⟩ := exists_of_mem_plainNames hmem'
  have htoken := tokenOfName_tokenName token n
  rw [show tokenName token n = "q" ++ toString k from hname, tokenOfName_plain] at htoken
  cases htoken

/-- Every state has its name. -/
theorem mem_namings (h : s ∈ a.states) : (s, a.persistedName s) ∈ a.namings := by
  have hkey : s ∈ a.namings.map Prod.fst := by
    rw [namings, List.map_append, map_fst_tokenNames, map_fst_plainNames, List.mem_append,
      mem_plainStates]
    exact (em _).imp_right fun hs => ⟨h, hs⟩
  obtain ⟨⟨s, name⟩, hmem, rfl⟩ := List.mem_map.1 hkey
  have hget : a.persistedNames.get? s = some name := by
    refine OrdMap.get?_ofList_eq hmem fun name' hmem' => ?_
    exact (Prod.mk.inj (List.inj_on_of_nodup_map nodup_map_fst_namings hmem' hmem rfl)).2
  rwa [persistedName, OrdMap.getD, hget]

/-- **The persisted names tell the states apart.** -/
theorem separates_persistedName : a.Separates a.persistedName := by
  intro s hs t ht h
  exact (Prod.mk.inj
    (List.inj_on_of_nodup_map nodup_map_snd_namings (mem_namings hs) (mem_namings ht) h)).1

/-- A state is named after its token if it is final and has one, and has a plain name else. -/
theorem persistedName_cases (h : s ∈ a.states) :
    (∃ token n, s ∈ a.finals ∧ a.tokens.get? s = some token ∧
      a.persistedName s = tokenName token n) ∨
    (¬ s ∈ a.recognisers.map Prod.fst) ∧ ∃ n : Nat, a.persistedName s = "q" ++ toString n := by
  rcases List.mem_append.1 (mem_namings h) with hmem | hmem
  · obtain ⟨token, n, hrecogniser, -, hname⟩ := exists_of_mem_tokenNames hmem
    obtain ⟨hs, htoken⟩ := mem_recognisers.1 hrecogniser
    exact .inl ⟨token, n, hs, htoken, hname⟩
  · obtain ⟨n, -, hname⟩ := exists_of_mem_plainNames hmem
    refine .inr ⟨?_, n, hname⟩
    have := List.mem_map_of_mem (f := Prod.fst) hmem
    rw [map_fst_plainNames] at this
    exact (mem_plainStates.1 this).2

/-- **The name of a final state says which token it has.** -/
theorem tokenOfName_persistedName (hs : s ∈ a.states) (hfinal : s ∈ a.finals) :
    (tokenOfName (a.persistedName s).toList).map String.ofList = a.tokens.get? s := by
  rcases persistedName_cases hs with ⟨token, n, -, htoken, hname⟩ | ⟨hplain, n, hname⟩
  · rw [hname, tokenOfName_tokenName, htoken, Option.map_some, String.ofList_toList]
  · rw [hname, tokenOfName_plain]
    cases htoken : a.tokens.get? s with
    | none => rfl
    | some token => exact absurd (mem_map_fst_recognisers.2 ⟨hfinal, token, htoken⟩) hplain

/-- The names can stand between commas. -/
theorem isWritable_persistedName (ha : ∀ token ∈ a.tokens.values, isWritable token = true)
    (hs : s ∈ a.states) : isWritable (a.persistedName s) = true := by
  rcases persistedName_cases hs with ⟨token, n, -, htoken, hname⟩ | ⟨-, n, hname⟩
  · rw [hname]
    refine isWritable_tokenName (ha token ?_)
    exact List.mem_map.2 ⟨_, OrdMap.mem_toList_iff.2 htoken, rfl⟩
  · rw [hname]
    exact isWritable_append_toString (by decide)

end Frontend.Automaton
