import Frontend.Proofs.Regex.Acceptance

/-!
# Patterns that refer to others

A pattern may refer to others by name. `Denotes` reads its symbols in the way in which `Reads` does
tokens, and a reference is an atom that stands for a language. What is compiled is not such a
pattern, but tokens in which every reference has been replaced by other tokens in parentheses
(`splice`). Both come to the same (`denotes_iff_reads`): nothing around a reference is drawn into
what replaces it, nor the other way round.

One direction puts readings together. In the other one the tokens of a reading are cut into parts,
and a cut could go through what replaces a reference. But brackets nest in every part, and in no
beginning of a group (`nests_append_of_open`), so no cut does (`splice_eq_append`).
-/

namespace Frontend.Regex

open scoped Computability

/-- A unit of a pattern that may refer to others by name. -/
inductive Symbol where
  | token (t : Token)
  | reference (name : String)
  deriving DecidableEq, Repr

/-- The symbols are read as the language. Everything binds as it does in `Reads`; a reference is an
atom, and `ρ` says what it denotes. -/
inductive Denotes (ρ : String → Language Char → Prop) :
    Level → List Symbol → Language Char → Prop
  | char (c : Char) : Denotes ρ .atom [.token (.literal c)] {[c]}
  | epsilon : Denotes ρ .atom [.token (.op .epsilon)] 1
  | reference {name : String} {L : Language Char} (h : ρ name L) :
    Denotes ρ .atom [.reference name] L
  | group {us : List Symbol} {L : Language Char} (h : Denotes ρ .alt us L) :
    Denotes ρ .atom (.token (.op .openParen) :: us ++ [.token (.op .closeParen)]) L
  | charClass {inner : List Token} (h : IsClassBody inner) :
    Denotes ρ .atom
      (.token (.op .openBracket) :: inner.map .token ++ [.token (.op .closeBracket)])
      {w | ClassWord inner w}
  | ofAtom {us : List Symbol} {L : Language Char} (h : Denotes ρ .atom us L) :
    Denotes ρ .suffixed us L
  | star {us : List Symbol} {L : Language Char} (h : Denotes ρ .atom us L) :
    Denotes ρ .suffixed (us ++ [.token (.op .star)]) L∗
  | plus {us : List Symbol} {L : Language Char} (h : Denotes ρ .atom us L) :
    Denotes ρ .suffixed (us ++ [.token (.op .plus)]) (L * L∗)
  | optional {us : List Symbol} {L : Language Char} (h : Denotes ρ .atom us L) :
    Denotes ρ .suffixed (us ++ [.token (.op .question)]) (L + 1)
  | ofSuffixed {us : List Symbol} {L : Language Char} (h : Denotes ρ .suffixed us L) :
    Denotes ρ .concat us L
  | concat {us vs : List Symbol} {L M : Language Char} (h : Denotes ρ .concat us L)
    (h' : Denotes ρ .suffixed vs M) : Denotes ρ .concat (us ++ vs) (L * M)
  | ofConcat {us : List Symbol} {L : Language Char} (h : Denotes ρ .concat us L) :
    Denotes ρ .alt us L
  | alt {us vs : List Symbol} {L M : Language Char} (h : Denotes ρ .alt us L)
    (h' : Denotes ρ .concat vs M) : Denotes ρ .alt (us ++ .token (.op .alt) :: vs) (L + M)

/-- The symbols that a text stands for as it is written. `<name>` is a reference, and angle brackets
have no other use; everything else is as in `Spells`, where blank characters say nothing. -/
inductive Writes : List Char → List Symbol → Prop
  | nil : Writes [] []
  | blank {c : Char} {cs : List Char} {us : List Symbol} (hblank : Text.isBlank c = true)
    (h : Writes cs us) : Writes (c :: cs) us
  | escape (c : Char) {cs : List Char} {us : List Symbol} (h : Writes cs us) :
    Writes ('\\' :: c :: cs) (.token (.literal c) :: us)
  | dot {cs : List Char} {us : List Symbol} (h : Writes cs us) : Writes ('.' :: cs) us
  | reference {name cs : List Char} {us : List Symbol} (hname : ∀ c ∈ name, c ≠ '<' ∧ c ≠ '>')
    (h : Writes cs us) :
    Writes ('<' :: name ++ '>' :: cs) (.reference (String.ofList name) :: us)
  | char {c : Char} {cs : List Char} {us : List Symbol} (hblank : Text.isBlank c = false)
    (hescape : c ≠ '\\') (hdot : c ≠ '.') (hangle : c ≠ '<' ∧ c ≠ '>') (h : Writes cs us) :
    Writes (c :: cs) (.token (.ofChar c) :: us)

/-- A text denotes a language as it is written. -/
def TextDenotes (ρ : String → Language Char → Prop) (text : String) (L : Language Char) : Prop :=
  ∃ us, Writes text.toList us ∧ Denotes ρ .alt us L

/-- The tokens that replace a symbol, where `τ` says what stands in the parentheses. -/
def Symbol.tokens (τ : String → List Token) : Symbol → List Token
  | token t => [t]
  | reference name => .op .openParen :: τ name ++ [.op .closeParen]

/-- Replaces every reference. -/
def splice (τ : String → List Token) (us : List Symbol) : List Token := us.flatMap (Symbol.tokens τ)

variable {ρ : String → Language Char → Prop} {τ : String → List Token} {lvl : Level}
  {us vs : List Symbol} {ts rest : List Token} {t : Token} {o : Op} {opened outer : List Op}
  {name : String} {L : Language Char} {p : Pattern}

@[simp] theorem splice_nil : splice τ [] = [] := rfl

@[simp] theorem splice_token : splice τ (.token t :: us) = t :: splice τ us := rfl

@[simp] theorem splice_reference :
    splice τ (.reference name :: us) =
      .op .openParen :: τ name ++ [.op .closeParen] ++ splice τ us := rfl

@[simp] theorem splice_append : splice τ (us ++ vs) = splice τ us ++ splice τ vs :=
  List.flatMap_append

@[simp] theorem splice_map_token : splice τ (ts.map .token) = ts := by
  induction ts with
  | nil => rfl
  | cons t ts ih => rw [List.map_cons, splice_token, ih]

/-! ## Texts one after the other -/

/-- What a text spells is the same whatever follows. -/
theorem Spells.append_iff {cs cs' : List Char} {us : List Token} (h : Spells cs ts) :
    Spells (cs ++ cs') us ↔ ∃ vs, us = ts ++ vs ∧ Spells cs' vs := by
  have hsplit : split? (cs ++ cs') = (split? cs').map (ts ++ ·) := by
    induction h with
    | nil => simp
    | escape c _ ih =>
      rw [List.cons_append, List.cons_append, split?, ih, Option.map_map]
      rfl
    | dot _ ih => rw [List.cons_append, split?, ih]
    | char hescape hdot _ ih =>
      rw [List.cons_append, split?, ih, Option.map_map]
      · rfl
      · exact fun h _ => hescape h
      · exact fun _ _ h _ => hescape h
      · exact hdot
  rw [← split?_eq_some_iff, hsplit, Option.map_eq_some_iff]
  exact exists_congr fun vs => and_comm.trans (and_congr eq_comm split?_eq_some_iff)

theorem Spells.group {cs : List Char} (h : Spells cs ts) :
    Spells ('(' :: cs ++ [')']) (.op .openParen :: ts ++ [.op .closeParen]) := by
  have hclose : Spells [')'] [.op .closeParen] := .char (c := ')') (by decide) (by decide) .nil
  have hbody := h.append_iff.2 ⟨_, rfl, hclose⟩
  exact .char (c := '(') (by decide) (by decide) hbody

/-! ## Brackets in a part of a pattern -/

theorem Reads.nested (h : Reads lvl ts p) : nests [] ts = true :=
  nests_iff_balanced.2 h.balanced

/-- What follows a token is checked against some brackets. -/
theorem exists_nests_of_cons (h : nests opened (t :: rest) = true) :
    ∃ opened', nests opened' rest = true := by
  rcases t.bracket_cases with hbracket | ⟨o, c, hpair, rfl | rfl⟩
  · exact ⟨opened, nests_of_cons h hbracket⟩
  · exact ⟨o :: opened, hpair.nests_opening.symm.trans h⟩
  · obtain ⟨outer, -, hrest⟩ := hpair.nests_closing_iff.1 h
    exact ⟨outer, hrest⟩

/-- **Brackets do not nest in a beginning of tokens in which they do**, if one more was open before
and is to be closed behind it. -/
theorem nests_append_of_open (h : nests opened (ts ++ rest) = true) :
    nests (opened ++ o :: outer) ts = false := by
  induction ts generalizing opened with
  | nil => cases opened <;> rfl
  | cons t ts ih =>
    rw [List.cons_append] at h
    rcases t.bracket_cases with hbracket | ⟨o', c, hpair, rfl | rfl⟩
    · rw [nests_cons hbracket]
      exact ih (nests_of_cons h hbracket)
    · have hinside := ih (hpair.nests_opening.symm.trans h)
      rwa [hpair.nests_opening]
    · obtain ⟨inner, rfl, hrest⟩ := hpair.nests_closing_iff.1 h
      rw [List.cons_append, hpair.nests_closing]
      exact ih hrest

/-- A group is closed where its brackets are: what is read in front of two closing parentheses of
the same tokens is the same. -/
theorem Reads.eq_of_closeParen {ts' rest' : List Token} {lvl' : Level} {p' : Pattern}
    (h : Reads lvl ts p) (h' : Reads lvl' ts' p')
    (heq : ts ++ .op .closeParen :: rest = ts' ++ .op .closeParen :: rest') :
    ts = ts' ∧ rest = rest' := by
  have hclosed : ∀ {lvl ts p more}, Reads lvl ts p →
      nests [] (ts ++ .op .closeParen :: more) ≠ true := by
    intro lvl ts p more h
    rw [h.balanced.nests_append]
    exact Bool.false_ne_true
  rcases List.append_eq_append_iff.1 heq with ⟨more, rfl, hmore⟩ | ⟨more, rfl, hmore⟩
  · cases more with
    | nil =>
      rw [List.nil_append] at hmore
      exact ⟨(List.append_nil _).symm, (List.cons.inj hmore).2⟩
    | cons t more =>
      obtain ⟨rfl, -⟩ := List.cons.inj hmore
      exact absurd h'.nested (hclosed h)
  · cases more with
    | nil =>
      rw [List.nil_append] at hmore
      exact ⟨List.append_nil _, (List.cons.inj hmore).2.symm⟩
    | cons t more =>
      obtain ⟨rfl, -⟩ := List.cons.inj hmore
      exact absurd h.nested (hclosed h')

/-! ## Cutting what has been spliced -/

theorem splice_eq_nil (h : splice τ us = []) : us = [] := by
  cases us with
  | nil => rfl
  | cons u us =>
    cases u with
    | token t => cases h
    | reference name => cases h

/-- What replaces a reference begins with a parenthesis, so any other token was there before. -/
theorem splice_eq_cons (h : splice τ us = t :: rest) (ht : t ≠ .op .openParen) :
    ∃ vs, us = .token t :: vs ∧ splice τ vs = rest := by
  cases us with
  | nil => cases h
  | cons u us =>
    cases u with
    | token t' =>
      obtain ⟨rfl, hrest⟩ := List.cons.inj h
      exact ⟨us, rfl, hrest⟩
    | reference name => exact absurd (List.cons.inj h).1.symm ht

theorem splice_eq_singleton (h : splice τ us = [t]) (ht : t ≠ .op .openParen) :
    us = [.token t] := by
  obtain ⟨vs, rfl, hvs⟩ := splice_eq_cons h ht
  rw [splice_eq_nil hvs]

/-- Tokens among which no parenthesis is have replaced nothing. -/
theorem splice_eq_of_forall (h : splice τ us = ts) (hts : ∀ t ∈ ts, t ≠ .op .openParen) :
    us = ts.map .token := by
  induction ts generalizing us with
  | nil => exact splice_eq_nil h
  | cons t ts ih =>
    obtain ⟨ht, hts⟩ := List.forall_mem_cons.1 hts
    obtain ⟨vs, rfl, hvs⟩ := splice_eq_cons h ht
    rw [List.map_cons, ih hvs hts]

/-- What replaces the references can be read. -/
def Readable (τ : String → List Token) (us : List Symbol) : Prop :=
  ∀ name, .reference name ∈ us → ∃ p, Reads .alt (τ name) p

theorem Readable.tail {u : Symbol} (h : Readable τ (u :: us)) : Readable τ us :=
  fun name hname => h name (.tail _ hname)

theorem Readable.left (h : Readable τ (us ++ vs)) : Readable τ us :=
  fun name hname => h name (List.mem_append_left _ hname)

theorem Readable.right (h : Readable τ (us ++ vs)) : Readable τ vs :=
  fun name hname => h name (List.mem_append_right _ hname)

/-- **A cut behind tokens in which brackets nest does not go through what replaces a reference.** -/
theorem splice_eq_append (h : splice τ us = ts ++ rest) (hnests : nests opened ts = true)
    (hτ : Readable τ us) :
    ∃ vs ws, us = vs ++ ws ∧ splice τ vs = ts ∧ splice τ ws = rest := by
  induction us generalizing ts opened with
  | nil =>
    obtain ⟨rfl, rfl⟩ := List.append_eq_nil_iff.1 h.symm
    exact ⟨[], [], rfl, rfl, rfl⟩
  | cons u us ih =>
    cases ts with
    | nil => exact ⟨[], u :: us, rfl, rfl, h⟩
    | cons t ts =>
      cases u with
      | token t' =>
        rw [splice_token, List.cons_append] at h
        obtain ⟨rfl, htail⟩ := List.cons.inj h
        obtain ⟨opened', hnests⟩ := exists_nests_of_cons hnests
        obtain ⟨vs, ws, rfl, rfl, hws⟩ := ih htail hnests hτ.tail
        exact ⟨.token t' :: vs, ws, rfl, rfl, hws⟩
      | reference name =>
        obtain ⟨p, hp⟩ := hτ name List.mem_cons_self
        rw [splice_reference, List.cons_append, List.cons_append, List.cons_append] at h
        obtain ⟨rfl, htail⟩ := List.cons.inj h
        rcases List.append_eq_append_iff.1 htail with ⟨more, rfl, hmore⟩ | ⟨more, hmore, hrest⟩
        · -- The cut is behind the group that replaces the reference.
          have hmore' := ((Reads.group hp).balanced.nests_append opened more).symm.trans hnests
          obtain ⟨vs, ws, rfl, rfl, hws⟩ := ih hmore hmore' hτ.tail
          exact ⟨.reference name :: vs, ws, rfl, by simp, hws⟩
        · -- The cut would be in the group, with its parenthesis still open.
          rcases List.eq_nil_or_concat more with rfl | ⟨front, last, rfl⟩
          · rw [List.append_nil] at hmore
            exact ⟨[.reference name], us, rfl, by simp [← hmore], hrest.symm⟩
          · rw [List.concat_eq_append, ← List.append_assoc] at hmore
            have hbody := hp.nested
            rw [(List.append_inj' hmore rfl).1] at hbody
            have hopen : nests ([] ++ .openParen :: opened) ts = false :=
              nests_append_of_open hbody
            exact absurd hnests (Bool.eq_false_iff.1 hopen)

/-- An operator behind an atom was there before, and the atom is a part of the symbols. -/
theorem splice_eq_concat (h : splice τ us = ts ++ [.op o]) (hreads : Reads lvl ts p)
    (ho : o ≠ .openParen) (hτ : Readable τ us) :
    ∃ vs, us = vs ++ [.token (.op o)] ∧ splice τ vs = ts := by
  obtain ⟨vs, ws, rfl, hvs, hws⟩ := splice_eq_append h hreads.nested hτ
  rw [splice_eq_singleton hws fun heq => ho (Token.op.inj heq)]
  exact ⟨vs, rfl, hvs⟩

/-- A group was there before, or it is what replaces one reference. -/
theorem splice_eq_group (h : splice τ us = .op .openParen :: ts ++ [.op .closeParen])
    (hreads : Reads lvl ts p) (hτ : Readable τ us) :
    (∃ vs, us = .token (.op .openParen) :: vs ++ [.token (.op .closeParen)] ∧ splice τ vs = ts) ∨
      ∃ name, us = [.reference name] ∧ τ name = ts := by
  rw [List.cons_append] at h
  cases us with
  | nil => cases h
  | cons u us =>
    cases u with
    | token t =>
      obtain ⟨rfl, htail⟩ := List.cons.inj h
      obtain ⟨vs, rfl, hvs⟩ := splice_eq_concat htail hreads nofun hτ.tail
      exact .inl ⟨vs, rfl, hvs⟩
    | reference name =>
      obtain ⟨q, hq⟩ := hτ name List.mem_cons_self
      rw [splice_reference, List.append_assoc, List.cons_append] at h
      obtain ⟨hts, hrest⟩ := hq.eq_of_closeParen hreads (List.cons.inj h).2
      exact .inr ⟨name, by rw [splice_eq_nil hrest], hts⟩

/-! ## Reading what has been spliced -/

/-- What is read with references is read with what replaces them. -/
theorem Denotes.exists_reads (h : Denotes ρ lvl us L)
    (hτ : ∀ {name L}, ρ name L → ∃ p, Reads .alt (τ name) p ∧ p.language = L) :
    ∃ p, Reads lvl (splice τ us) p ∧ p.language = L := by
  induction h with
  | char c => exact ⟨_, .char c, rfl⟩
  | epsilon => exact ⟨_, .epsilon, rfl⟩
  | reference h =>
    obtain ⟨p, hp, hL⟩ := hτ h
    exact ⟨p, by simpa using Reads.group hp, hL⟩
  | group _ ih =>
    obtain ⟨p, hp, hL⟩ := ih
    exact ⟨p, by simpa using Reads.group hp, hL⟩
  | charClass h => exact ⟨_, by simpa using Reads.charClass h, rfl⟩
  | ofAtom _ ih =>
    obtain ⟨p, hp, hL⟩ := ih
    exact ⟨p, .ofAtom hp, hL⟩
  | star _ ih =>
    obtain ⟨p, hp, rfl⟩ := ih
    exact ⟨_, by simpa using Reads.star hp, rfl⟩
  | plus _ ih =>
    obtain ⟨p, hp, rfl⟩ := ih
    exact ⟨_, by simpa using Reads.plus hp, rfl⟩
  | optional _ ih =>
    obtain ⟨p, hp, rfl⟩ := ih
    exact ⟨_, by simpa using Reads.optional hp, rfl⟩
  | ofSuffixed _ ih =>
    obtain ⟨p, hp, hL⟩ := ih
    exact ⟨p, .ofSuffixed hp, hL⟩
  | concat _ _ ih ih' =>
    obtain ⟨p, hp, rfl⟩ := ih
    obtain ⟨q, hq, rfl⟩ := ih'
    exact ⟨_, by simpa using Reads.concat hp hq, rfl⟩
  | ofConcat _ ih =>
    obtain ⟨p, hp, hL⟩ := ih
    exact ⟨p, .ofConcat hp, hL⟩
  | alt _ _ ih ih' =>
    obtain ⟨p, hp, rfl⟩ := ih
    obtain ⟨q, hq, rfl⟩ := ih'
    exact ⟨_, by simpa using Reads.alt hp hq, rfl⟩

/-- What is read with what replaces the references is read with references. -/
theorem Reads.denotes (h : Reads lvl (splice τ us) p) (hτ : Readable τ us)
    (hρ : ∀ {name p}, Reads .alt (τ name) p → ρ name p.language) :
    Denotes ρ lvl us p.language := by
  generalize hts : splice τ us = ts at h
  induction h generalizing us with
  | char c =>
    rw [splice_eq_singleton hts nofun]
    exact .char c
  | epsilon =>
    rw [splice_eq_singleton hts nofun]
    exact .epsilon
  | group h ih =>
    rcases splice_eq_group hts h hτ with ⟨vs, rfl, hvs⟩ | ⟨name, rfl, rfl⟩
    · exact .group (ih hτ.left.tail hvs)
    · exact .reference (hρ h)
  | @charClass inner h =>
    have hparen : ∀ t ∈ .op .openBracket :: inner ++ [.op .closeBracket],
        t ≠ .op .openParen := by
      intro t ht
      rcases List.mem_append.1 ht with ht | ht
      · rcases List.mem_cons.1 ht with rfl | ht
        · exact nofun
        · exact (h.ne_bracket ht).1
      · rw [List.mem_singleton.1 ht]
        exact nofun
    rw [splice_eq_of_forall hts hparen, List.map_append, List.map_cons]
    exact .charClass h
  | ofAtom _ ih => exact .ofAtom (ih hτ hts)
  | star h ih =>
    obtain ⟨vs, rfl, hvs⟩ := splice_eq_concat hts h nofun hτ
    exact .star (ih hτ.left hvs)
  | plus h ih =>
    obtain ⟨vs, rfl, hvs⟩ := splice_eq_concat hts h nofun hτ
    exact .plus (ih hτ.left hvs)
  | optional h ih =>
    obtain ⟨vs, rfl, hvs⟩ := splice_eq_concat hts h nofun hτ
    exact .optional (ih hτ.left hvs)
  | ofSuffixed _ ih => exact .ofSuffixed (ih hτ hts)
  | concat h _ ih ih' =>
    obtain ⟨vs, ws, rfl, hvs, hws⟩ := splice_eq_append hts h.nested hτ
    exact .concat (ih hτ.left hvs) (ih' hτ.right hws)
  | ofConcat _ ih => exact .ofConcat (ih hτ hts)
  | alt h _ ih ih' =>
    obtain ⟨vs, ws, rfl, hvs, hws⟩ := splice_eq_append hts h.nested hτ
    obtain ⟨ws', rfl, hws'⟩ := splice_eq_cons hws nofun
    exact .alt (ih hτ.left hvs) (ih' hτ.right.tail hws')

/-- **A pattern with references denotes what is read when every reference is replaced** by tokens
that are read as what it denotes, in parentheses. -/
theorem denotes_iff_reads (hτ : Readable τ us)
    (hρ : ∀ {name L}, ρ name L ↔ ∃ p, Reads .alt (τ name) p ∧ p.language = L) :
    Denotes ρ lvl us L ↔ ∃ p, Reads lvl (splice τ us) p ∧ p.language = L := by
  refine ⟨fun h => h.exists_reads hρ.1, fun h => ?_⟩
  obtain ⟨p, hp, rfl⟩ := h
  exact hp.denotes hτ fun hq => hρ.2 ⟨_, hq, rfl⟩

/-- Where there is nothing to refer to, a pattern denotes what it is read as. -/
theorem denotes_map_token_iff :
    Denotes (fun _ _ => False) lvl (ts.map .token) L ↔ ∃ p, Reads lvl ts p ∧ p.language = L := by
  have hreadable : Readable (fun _ => []) (ts.map .token) := by
    intro name h
    obtain ⟨t, -, ht⟩ := List.mem_map.1 h
    cases ht
  have hnone : ∀ {L : Language Char}, False ↔ ∃ p, Reads .alt [] p ∧ p.language = L :=
    iff_of_false id fun ⟨_, hp, _⟩ => hp.ne_nil rfl
  rw [denotes_iff_reads hreadable hnone, splice_map_token]

end Frontend.Regex
