import Frontend.Proofs.Ordered
import Frontend.Proofs.Outcomes
import Frontend.Proofs.Regex.Desugaring
import Frontend.Proofs.Text.Digits

/-!
# Classes are written as alternatives

Reading a class succeeds on what `IsClassBody` describes and on nothing else
(`exists_classMembers_iff`), and its members are the words of the class (`exists_mem_tokens_iff`).
Written as alternatives in parentheses, they are read as a pattern with these words, so a
pattern without sugar stays readable and keeps its words when every class in it is written out
(`expandFrom_reads`).
-/

namespace Frontend.Regex

/-! ## Ranges of characters -/

/-- The characters that bound a range are letters or digits. -/
theorem isAlphanum_of_sameKind {lo hi : Char} (h : sameKind lo hi = true) :
    lo.isAlphanum = true ∧ hi.isAlphanum = true := by
  rw [sameKind, Bool.or_eq_true, Bool.or_eq_true, Bool.and_eq_true, Bool.and_eq_true,
    Bool.and_eq_true] at h
  have hupper : ∀ {c : Char}, c.isUpper = true → c.isAlphanum = true := fun h =>
    Bool.or_eq_true_iff.2 (.inl (Bool.or_eq_true_iff.2 (.inl h)))
  have hlower : ∀ {c : Char}, c.isLower = true → c.isAlphanum = true := fun h =>
    Bool.or_eq_true_iff.2 (.inl (Bool.or_eq_true_iff.2 (.inr h)))
  have hdigit : ∀ {c : Char}, c.isDigit = true → c.isAlphanum = true := fun h =>
    Bool.or_eq_true_iff.2 (.inr h)
  rcases h with (h | h) | h
  · exact h.imp hupper hupper
  · exact h.imp hlower hlower
  · exact h.imp hdigit hdigit

theorem mem_charRange {lo hi c : Char} (h : sameKind lo hi = true) :
    c ∈ charRange lo hi ↔ lo ≤ c ∧ c ≤ hi := by
  have hle : ∀ a b : Char, a ≤ b ↔ a.toNat ≤ b.toNat := fun a b => UInt32.le_iff_toNat_le
  have hhi := (Text.toNat_of_isAlphanum (isAlphanum_of_sameKind h).2).2
  rw [charRange, List.mem_map, hle, hle]
  constructor
  · intro h
    obtain ⟨k, hk, rfl⟩ := h
    rw [List.mem_range] at hk
    rw [Text.toNat_ofNat_of_lt (by omega)]
    omega
  · intro h
    obtain ⟨hlo, hhi⟩ := h
    refine ⟨c.toNat - lo.toNat, List.mem_range.2 (by omega), ?_⟩
    rw [Nat.add_sub_cancel' hlo, Char.ofNat_toNat]

/-! ## What a class may hold -/

/-- A dash stands for a range of characters. -/
def IsRange (before after : Option Token) : Prop :=
  ∃ lo hi, before = some (.literal lo) ∧ after = some (.literal hi) ∧
    sameKind lo hi = true ∧ lo ≤ hi

/-- What a class may hold after `prev`. -/
def IsClassRest (prev : Option Token) (inner : List Token) : Prop :=
  (∀ t ∈ inner, (∃ c, t = .literal c) ∨ t = .op .epsilon ∨ t = .op .dash) ∧
    ∀ front rest, inner = front ++ .op .dash :: rest →
      IsRange (prev.toList ++ front).getLast? rest.head?

variable {whole inner : List Token} {prev : Option Token} {k : CharClass}

theorem isClassBody_iff : IsClassBody inner ↔ inner ≠ [] ∧ IsClassRest none inner :=
  ⟨fun h => ⟨h.nonempty, h.members, h.ranges⟩, fun ⟨hne, hmem, hranges⟩ => ⟨hne, hmem, hranges⟩⟩

theorem isClassRest_nil : IsClassRest prev [] :=
  ⟨fun _ h => absurd h List.not_mem_nil, fun front _ h => by cases front <;> cases h⟩

/-- What a class may hold, token by token. -/
theorem isClassRest_cons {t : Token} :
    IsClassRest prev (t :: inner) ↔
      ((∃ c, t = .literal c) ∨ t = .op .epsilon ∨ t = .op .dash ∧ IsRange prev inner.head?) ∧
        IsClassRest (some t) inner := by
  constructor
  · intro h
    obtain ⟨hmem, hranges⟩ := h
    refine ⟨?_, fun u hu => hmem u (List.mem_cons_of_mem _ hu), ?_⟩
    · rcases hmem t List.mem_cons_self with h | h | rfl
      · exact .inl h
      · exact .inr (.inl h)
      · have h := hranges [] inner rfl
        rw [List.append_nil] at h
        refine .inr (.inr ⟨rfl, ?_⟩)
        cases prev with
        | none => exact h
        | some q => exact h
    · intro front rest heq
      subst heq
      -- With `t` in front of the dash, the token before all of them does not matter.
      have h := hranges (t :: front) rest rfl
      rwa [List.getLast?_append_of_ne_nil _ (List.cons_ne_nil _ _)] at h
  · intro h
    obtain ⟨ht, hmem, hranges⟩ := h
    refine ⟨List.forall_mem_cons.2 ⟨?_, hmem⟩, ?_⟩
    · exact ht.imp_right fun h => h.imp_right And.left
    · intro front rest heq
      cases front with
      | nil =>
        obtain ⟨rfl, rfl⟩ := List.cons.inj heq
        rcases ht with ⟨c, h⟩ | h | ⟨-, h⟩
        · cases h
        · cases h
        · rw [List.append_nil]
          cases prev with
          | none => exact h
          | some q => exact h
      | cons u front =>
        obtain ⟨rfl, rfl⟩ := List.cons.inj heq
        rw [List.getLast?_append_of_ne_nil _ (List.cons_ne_nil _ _)]
        exact hranges front rest rfl

/-! ## Reading a class -/

/-- A dash is read if it stands for a range, and then its characters are members. -/
theorem membersFrom_dash_eq_ok :
    membersFrom whole prev (.op .dash :: inner) = .ok k ↔
      ∃ lo hi k', prev = some (.literal lo) ∧ inner.head? = some (.literal hi) ∧
        sameKind lo hi = true ∧ lo ≤ hi ∧
        membersFrom whole (some (.op .dash)) inner = .ok k' ∧
        k = k'.addChars (charRange lo hi) := by
  rw [membersFrom.eq_def]
  dsimp only
  split
  · next lo hi hhead =>
    split
    · next hrange =>
      rw [Bool.and_eq_true, decide_eq_true_eq] at hrange
      rw [map_eq_ok]
      constructor
      · intro h
        obtain ⟨k', hk', rfl⟩ := h
        exact ⟨lo, hi, k', rfl, hhead, hrange.1, hrange.2, hk', rfl⟩
      · intro h
        obtain ⟨lo', hi', k', ⟨⟩, hhead', -, -, hk', rfl⟩ := h
        rw [hhead] at hhead'
        cases hhead'
        exact ⟨k', hk', rfl⟩
    · next hrange =>
      refine ⟨nofun, ?_⟩
      intro h
      obtain ⟨lo', hi', k', ⟨⟩, hhead', hkind, hle, -⟩ := h
      rw [hhead] at hhead'
      cases hhead'
      rw [hkind, decide_eq_true hle] at hrange
      exact absurd rfl hrange
  · next hno =>
    refine ⟨nofun, ?_⟩
    intro h
    obtain ⟨lo, hi, k', rfl, hhead, -⟩ := h
    exact (hno lo hi rfl hhead).elim

/-- **Reading a class succeeds exactly on what a class may hold.** -/
theorem exists_membersFrom_iff :
    (∃ k, membersFrom whole prev inner = .ok k) ↔ IsClassRest prev inner := by
  induction inner generalizing prev with
  | nil => exact ⟨fun _ => isClassRest_nil, fun _ => ⟨.empty, rfl⟩⟩
  | cons t inner ih =>
    rw [isClassRest_cons]
    constructor
    · intro h
      obtain ⟨k, hk⟩ := h
      cases t with
      | literal c =>
        obtain ⟨k', hk', -⟩ := map_eq_ok.1 hk
        exact ⟨.inl ⟨c, rfl⟩, ih.1 ⟨k', hk'⟩⟩
      | op o =>
        cases o with
        | epsilon =>
          obtain ⟨k', hk', -⟩ := map_eq_ok.1 hk
          exact ⟨.inr (.inl rfl), ih.1 ⟨k', hk'⟩⟩
        | dash =>
          obtain ⟨lo, hi, k', rfl, hhead, hkind, hle, hk', -⟩ := membersFrom_dash_eq_ok.1 hk
          exact ⟨.inr (.inr ⟨rfl, lo, hi, rfl, hhead, hkind, hle⟩), ih.1 ⟨k', hk'⟩⟩
        | _ => cases hk
    · intro h
      rcases h with ⟨⟨c, rfl⟩ | rfl | ⟨rfl, lo, hi, rfl, hhead, hkind, hle⟩, hrest⟩
      · obtain ⟨k, hk⟩ := ih.2 hrest
        exact ⟨_, map_eq_ok.2 ⟨k, hk, rfl⟩⟩
      · obtain ⟨k, hk⟩ := ih.2 hrest
        exact ⟨_, map_eq_ok.2 ⟨k, hk, rfl⟩⟩
      · obtain ⟨k, hk⟩ := ih.2 hrest
        exact ⟨_, membersFrom_dash_eq_ok.2 ⟨lo, hi, k, rfl, hhead, hkind, hle, hk, rfl⟩⟩

/-- The pattern holds a class exactly if the class can be read. -/
theorem exists_classMembers_iff : (∃ k, classMembers inner = .ok k) ↔ IsClassBody inner := by
  rw [isClassBody_iff, classMembers]
  cases inner with
  | nil => exact ⟨fun ⟨k, hk⟩ => (nomatch hk), fun h => absurd rfl h.1⟩
  | cons t inner =>
    rw [List.isEmpty_cons, if_neg Bool.false_ne_true, exists_membersFrom_iff]
    exact ⟨fun h => ⟨List.cons_ne_nil _ _, h⟩, And.right⟩

theorem mem_addChars {cs : List Char} {c : Char} :
    c ∈ (k.addChars cs).chars ↔ c ∈ cs ∨ c ∈ k.chars := OrdSet.mem_foldl_insert

/-- A range stands across the first two tokens or further on. -/
theorem range_infix_cons {lo hi : Char} {t : Token} :
    [.literal lo, .op .dash, .literal hi] <:+: prev.toList ++ t :: inner ↔
      (prev = some (.literal lo) ∧ t = .op .dash ∧ inner.head? = some (.literal hi)) ∨
        [.literal lo, .op .dash, .literal hi] <:+: t :: inner := by
  cases prev with
  | none => simp
  | some q =>
    have hhead : [Token.literal hi] <+: inner ↔ inner.head? = some (.literal hi) := by
      cases inner with
      | nil => simp
      | cons u inner => simp [eq_comm]
    rw [Option.toList_some, List.singleton_append, List.infix_cons_iff, List.cons_prefix_cons,
      List.cons_prefix_cons, hhead, Option.some_inj, eq_comm, @eq_comm _ t]

/-- The characters of a class are its literals and those in its ranges. -/
theorem mem_chars_of_membersFrom (h : membersFrom whole prev inner = .ok k) {c : Char} :
    c ∈ k.chars ↔ .literal c ∈ inner ∨
      ∃ lo hi, [.literal lo, .op .dash, .literal hi] <:+: prev.toList ++ inner ∧
        lo ≤ c ∧ c ≤ hi := by
  induction inner generalizing prev k with
  | nil =>
    cases h
    have hnot : ∀ lo hi : Char,
        ¬ [Token.literal lo, .op .dash, .literal hi] <:+: prev.toList := by
      intro lo hi hinfix
      have hlength := hinfix.length_le
      have hshort : prev.toList.length ≤ 1 := by cases prev <;> simp
      exact absurd (hlength.trans hshort) (by simp)
    simp [CharClass.empty, hnot]
  | cons t inner ih =>
    simp only [range_infix_cons]
    cases t with
    | literal d =>
      obtain ⟨k', hk', rfl⟩ := map_eq_ok.1 h
      rw [mem_addChars, ih hk']
      simp [or_assoc]
    | op o =>
      cases o with
      | epsilon =>
        obtain ⟨k', hk', rfl⟩ := map_eq_ok.1 h
        rw [show (c ∈ k'.addEpsilon.chars ↔ c ∈ k'.chars) from Iff.rfl, ih hk']
        simp
      | dash =>
        obtain ⟨lo, hi, k', rfl, hhead, hkind, -, hk', rfl⟩ := membersFrom_dash_eq_ok.1 h
        rw [mem_addChars, mem_charRange hkind, ih hk']
        constructor
        · intro h
          rcases h with hc | hc | ⟨lo', hi', hinfix, hc⟩
          · exact .inr ⟨lo, hi, .inl ⟨rfl, rfl, hhead⟩, hc⟩
          · exact .inl (List.mem_cons_of_mem _ hc)
          · exact .inr ⟨lo', hi', .inr hinfix, hc⟩
        · intro h
          rcases h with hc | ⟨lo', hi', ⟨⟨⟩, -, hhead'⟩ | hinfix, hc⟩
          · exact .inr (.inl ((List.mem_cons.1 hc).resolve_left nofun))
          · rw [hhead] at hhead'
            cases hhead'
            exact .inl hc
          · exact .inr (.inr ⟨lo', hi', hinfix, hc⟩)
      | _ => cases h

/-- A class holds the empty word if that is listed. -/
theorem hasEpsilon_of_membersFrom (h : membersFrom whole prev inner = .ok k) :
    k.hasEpsilon = true ↔ .op .epsilon ∈ inner := by
  induction inner generalizing prev k with
  | nil =>
    cases h
    simp [CharClass.empty]
  | cons t inner ih =>
    cases t with
    | literal d =>
      obtain ⟨k', hk', rfl⟩ := map_eq_ok.1 h
      rw [CharClass.addChars, ih hk']
      simp
    | op o =>
      cases o with
      | epsilon =>
        obtain ⟨k', hk', rfl⟩ := map_eq_ok.1 h
        simp [CharClass.addEpsilon]
      | dash =>
        obtain ⟨lo, hi, k', rfl, -, -, -, hk', rfl⟩ := membersFrom_dash_eq_ok.1 h
        rw [CharClass.addChars, ih hk']
        simp
      | _ => cases h

theorem membersFrom_of_classMembers (h : classMembers inner = .ok k) :
    ∃ whole, membersFrom whole none inner = .ok k := by
  unfold classMembers at h
  split at h
  · cases h
  · exact ⟨_, h⟩

/-- A class is not empty, as it does not begin with a dash. -/
theorem IsClassBody.exists_word (h : IsClassBody inner) : ∃ w, ClassWord inner w := by
  obtain ⟨t, rest, rfl⟩ := List.exists_cons_of_ne_nil h.nonempty
  rcases h.members t List.mem_cons_self with ⟨c, rfl⟩ | rfl | rfl
  · exact ⟨[c], .literal List.mem_cons_self⟩
  · exact ⟨[], .epsilon List.mem_cons_self⟩
  · obtain ⟨lo, hi, hlo, -⟩ := h.ranges [] rest rfl
    cases hlo

/-! ## Alternatives -/

/-- The pattern of a token that is an expression by itself. -/
def Token.pattern : Token → Pattern
  | literal c => .char c
  | op _ => .epsilon

theorem reads_operand {t : Token} (ht : t.isOperand = true) : Reads .atom [t] t.pattern := by
  cases t with
  | literal c => exact .char c
  | op o =>
    cases o with
    | epsilon => exact .epsilon
    | _ => cases ht

theorem Token.isCore_pattern (t : Token) : t.pattern.IsCore := by
  cases t with
  | literal c => trivial
  | op o => trivial

/-- The members of a class are operands. -/
theorem CharClass.isOperand_of_mem_tokens {t : Token} (ht : t ∈ k.tokens) :
    t.isOperand = true := by
  rcases List.mem_append.1 ht with ht | ht
  · obtain ⟨c, -, rfl⟩ := List.mem_map.1 ht
    rfl
  · split at ht
    · rw [List.mem_singleton.1 ht]
      rfl
    · cases ht

/-- **The members of a class denote its words.** -/
theorem exists_mem_tokens_iff (h : classMembers inner = .ok k) (w : List Char) :
    (∃ t ∈ k.tokens, w ∈ t.pattern.language) ↔ ClassWord inner w := by
  obtain ⟨whole, h⟩ := membersFrom_of_classMembers h
  have hchars := fun c : Char => mem_chars_of_membersFrom h (c := c)
  constructor
  · intro h
    obtain ⟨t, ht, hw⟩ := h
    -- The tokens are the characters in order, and then the empty word.
    rcases List.mem_append.1 ht with ht | ht
    · obtain ⟨c, hc, rfl⟩ := List.mem_map.1 ht
      obtain rfl : w = [c] := hw
      rcases (hchars c).1 hc with hc | ⟨lo, hi, hinfix, hlo, hhi⟩
      · exact .literal hc
      · exact .range hinfix hlo hhi
    · split at ht
      · next heps =>
        rw [List.mem_singleton.1 ht] at hw
        obtain rfl : w = [] := hw
        exact .epsilon ((hasEpsilon_of_membersFrom h).1 heps)
      · cases ht
  · intro hw
    cases hw with
    | @literal c hc =>
      have hmem := (hchars c).2 (.inl hc)
      exact ⟨.literal c, List.mem_append_left _ (List.mem_map_of_mem hmem), rfl⟩
    | @range lo hi c hinfix hlo hhi =>
      have hmem := (hchars c).2 (.inr ⟨lo, hi, hinfix, hlo, hhi⟩)
      exact ⟨.literal c, List.mem_append_left _ (List.mem_map_of_mem hmem), rfl⟩
    | epsilon heps =>
      refine ⟨.op .epsilon, List.mem_append_right _ ?_, rfl⟩
      rw [if_pos ((hasEpsilon_of_membersFrom h).2 heps)]
      exact List.mem_singleton_self _

variable {lvl : Level} {ts : List Token} {p : Pattern}

/-- Operands between bars, put behind a reading, are read as further alternatives. -/
theorem exists_reads_alternatives (h : Reads .alt ts p) (hp : p.IsCore) {us : List Token}
    (hne : us ≠ []) (hus : ∀ u ∈ us, u.isOperand = true) :
    ∃ q, Reads .alt (ts ++ .op .alt :: us.intersperse (.op .alt)) q ∧ q.IsCore ∧
      ∀ w, w ∈ q.language ↔ w ∈ p.language ∨ ∃ u ∈ us, w ∈ u.pattern.language := by
  induction us generalizing ts p with
  | nil => exact absurd rfl hne
  | cons u us ih =>
    obtain ⟨hu, hrest⟩ := List.forall_mem_cons.1 hus
    have hstep : Reads .alt (ts ++ [.op .alt, u]) (.alt p u.pattern) :=
      .alt h (.ofSuffixed (.ofAtom (reads_operand hu)))
    have hcore : (Pattern.alt p u.pattern).IsCore := ⟨hp, u.isCore_pattern⟩
    cases us with
    | nil =>
      refine ⟨_, hstep, hcore, fun w => ?_⟩
      simp [Pattern.language, Language.mem_add]
    | cons u' us =>
      -- Alternatives group to the left, so the first one joins what is read already.
      obtain ⟨q, hq, hqcore, hwords⟩ := ih hstep hcore (List.cons_ne_nil _ _) hrest
      refine ⟨q, ?_, hqcore, fun w => ?_⟩
      · rw [List.append_assoc] at hq
        exact hq
      · rw [hwords, Pattern.language, Language.mem_add, List.exists_mem_cons_iff _ u, or_assoc]

/-- Operands between bars are read as alternatives. -/
theorem exists_reads_intersperse {us : List Token} (hne : us ≠ [])
    (hus : ∀ u ∈ us, u.isOperand = true) :
    ∃ q, Reads .alt (us.intersperse (.op .alt)) q ∧ q.IsCore ∧
      ∀ w, w ∈ q.language ↔ ∃ u ∈ us, w ∈ u.pattern.language := by
  cases us with
  | nil => exact absurd rfl hne
  | cons u us =>
    obtain ⟨hu, hrest⟩ := List.forall_mem_cons.1 hus
    have hstep := (reads_operand hu).ofAtom_alt
    cases us with
    | nil => exact ⟨_, hstep, u.isCore_pattern, fun w => by simp⟩
    | cons u' us =>
      obtain ⟨q, hq, hqcore, hwords⟩ :=
        exists_reads_alternatives hstep u.isCore_pattern (List.cons_ne_nil _ _) hrest
      refine ⟨q, hq, hqcore, fun w => ?_⟩
      rw [hwords, List.exists_mem_cons_iff _ u]

/-- **A class written as alternatives is read as a pattern with the words of the class.** -/
theorem exists_reads_charClass (h : IsClassBody inner) :
    ∃ k q, classMembers inner = .ok k ∧ Reads .atom k.alternatives q ∧ q.IsCore ∧
      q.language = (Pattern.charClass inner).language := by
  obtain ⟨k, hk⟩ := exists_classMembers_iff.2 h
  have hne : k.tokens ≠ [] := by
    obtain ⟨w, hw⟩ := h.exists_word
    obtain ⟨t, ht, -⟩ := (exists_mem_tokens_iff hk w).2 hw
    exact List.ne_nil_of_mem ht
  obtain ⟨q, hq, hcore, hwords⟩ :=
    exists_reads_intersperse hne fun u hu => k.isOperand_of_mem_tokens hu
  refine ⟨k, q, hk, .group hq, hcore, Set.ext fun w => ?_⟩
  exact (hwords w).trans (exists_mem_tokens_iff hk w)

/-! ## The pass over a part -/

/-- Outside classes `ts'` comes out while `ts` is read. -/
def Expands (ts ts' : List Token) : Prop :=
  ∀ rest, expandFrom none (ts ++ rest) = (expandFrom none rest).map (ts' ++ ·)

theorem expands_singleton {t : Token} (ht : t ≠ .op .openBracket) : Expands [t] [t] := by
  intro rest
  rw [List.singleton_append, expandFrom]
  exact if_neg ht

theorem Expands.append {us ts' us' : List Token} (h : Expands ts ts') (h' : Expands us us') :
    Expands (ts ++ us) (ts' ++ us') := by
  intro rest
  rw [List.append_assoc, h, h']
  cases expandFrom none rest with
  | error e => rfl
  | ok more => exact congrArg Except.ok (List.append_assoc ..).symm

/-- Inside a class, tokens are kept until it is closed. -/
theorem expandFrom_inClass (h : ∀ t ∈ inner, t ≠ .op .closeBracket) (before rest : List Token) :
    expandFrom (some before) (inner ++ rest) =
      expandFrom (some (inner.reverse ++ before)) rest := by
  induction inner generalizing before with
  | nil => rfl
  | cons t inner ih =>
    obtain ⟨ht, hrest⟩ := List.forall_mem_cons.1 h
    rw [List.cons_append, expandFrom, if_neg ht, ih hrest, List.reverse_cons, List.append_assoc]
    rfl

theorem expands_charClass (h : IsClassBody inner) (hk : classMembers inner = .ok k) :
    Expands (.op .openBracket :: inner ++ [.op .closeBracket]) k.alternatives := by
  have hinner : ∀ t ∈ inner, t ≠ .op .closeBracket := fun t ht => (h.ne_bracket ht).2.2.2
  intro rest
  rw [List.append_assoc, List.cons_append, expandFrom]
  show expandFrom (some []) (inner ++ .op .closeBracket :: rest) = _
  rw [expandFrom_inClass hinner, List.append_nil, expandFrom, if_pos rfl, List.reverse_reverse, hk]
  cases expandFrom none rest with
  | error e => rfl
  | ok more => rfl

/-- **What a part without sugar becomes is read as a pattern of the core with its words.** -/
theorem expandFrom_reads (h : Reads lvl ts p) (hp : p.IsSugarFree) :
    ∃ ts' q, Expands ts ts' ∧ Reads lvl ts' q ∧ q.IsCore ∧ q.language = p.language := by
  induction h with
  | char c => exact ⟨_, _, expands_singleton Token.noConfusion, .char c, trivial, rfl⟩
  | epsilon => exact ⟨_, _, expands_singleton (by decide), .epsilon, trivial, rfl⟩
  | group _ ih =>
    obtain ⟨ts', q, hrun, hq, hcore, hlang⟩ := ih hp
    refine ⟨_, q, ?_, .group hq, hcore, hlang⟩
    exact ((expands_singleton (t := .op .openParen) (by decide)).append hrun).append
      (expands_singleton (by decide))
  | charClass hbody =>
    obtain ⟨k, q, hk, hq, hcore, hlang⟩ := exists_reads_charClass hbody
    exact ⟨_, q, expands_charClass hbody hk, hq, hcore, hlang⟩
  | ofAtom _ ih =>
    obtain ⟨ts', q, hrun, hq, hrest⟩ := ih hp
    exact ⟨ts', q, hrun, .ofAtom hq, hrest⟩
  | star _ ih =>
    obtain ⟨ts', q, hrun, hq, hcore, hlang⟩ := ih hp
    refine ⟨_, _, hrun.append (expands_singleton (by decide)), .star hq, hcore, ?_⟩
    rw [Pattern.language, Pattern.language, hlang]
  | plus | optional => exact hp.elim
  | ofSuffixed _ ih =>
    obtain ⟨ts', q, hrun, hq, hrest⟩ := ih hp
    exact ⟨ts', q, hrun, .ofSuffixed hq, hrest⟩
  | concat _ _ ih ih' =>
    obtain ⟨ts', q, hrun, hq, hcore, hlang⟩ := ih hp.1
    obtain ⟨us', q', hrun', hq', hcore', hlang'⟩ := ih' hp.2
    refine ⟨_, _, hrun.append hrun', .concat hq hq', ⟨hcore, hcore'⟩, ?_⟩
    rw [Pattern.language, Pattern.language, hlang, hlang']
  | ofConcat _ ih =>
    obtain ⟨ts', q, hrun, hq, hrest⟩ := ih hp
    exact ⟨ts', q, hrun, .ofConcat hq, hrest⟩
  | alt _ _ ih ih' =>
    obtain ⟨ts', q, hrun, hq, hcore, hlang⟩ := ih hp.1
    obtain ⟨us', q', hrun', hq', hcore', hlang'⟩ := ih' hp.2
    have halt := (expands_singleton (t := .op .alt) (by decide)).append hrun'
    refine ⟨_, _, hrun.append halt, .alt hq hq', ⟨hcore, hcore'⟩, ?_⟩
    rw [Pattern.language, Pattern.language, hlang, hlang']

/-- A pattern without sugar becomes one of the core as a whole. -/
theorem expandClasses_reads (h : Reads .alt ts p) (hp : p.IsSugarFree) :
    ∃ ts' q, expandClasses ts = .ok ts' ∧ Reads .alt ts' q ∧ q.IsCore ∧
      q.language = p.language := by
  obtain ⟨ts', q, hrun, hq⟩ := expandFrom_reads h hp
  have hread := hrun []
  rw [List.append_nil] at hread
  refine ⟨ts', q, ?_, hq⟩
  rw [expandClasses, hread, expandFrom]
  exact congrArg Except.ok (List.append_nil ts')

end Frontend.Regex
