import Frontend.Regex.Sugar
import Frontend.Proofs.Regex.Patterns

/-!
# Optional and repeated expressions are replaced

The operand of `?` and `+` is the literal, group or class right before them. `Desugars` says what
tokens become when `?` and `+` are replaced inside each operand first and then behind it. The pass
goes from left to right and finds an operand by looking back, in what it has written, for the
bracket that opens it. Brackets nest there, so the search passes over whole groups (`Skips`) and
ends where the operand begins (`splitOperand?_desugars`); so the pass writes what the relation says
(`Desugars.desugarFrom_eq`). What replaces a pattern is read as a pattern with the same words that
holds neither operator (`desugar_reads`).
-/

namespace Frontend.Regex

open scoped Computability

variable {lvl : Level} {ts us : List Token} {p : Pattern}

/-! ## Looking for an opening bracket -/

section Skips

variable {opening closing : Token}

/-- A search for the bracket that opens a group passes over these reversed tokens. -/
def Skips (opening closing : Token) (ts : List Token) : Prop :=
  ∀ depth rest, splitGroup? opening closing (depth + 1) (ts ++ rest) =
    (splitGroup? opening closing (depth + 1) rest).map fun (group, more) => (ts ++ group, more)

theorem skips_nil : Skips opening closing [] := by
  intro depth rest
  rw [List.nil_append]
  cases splitGroup? opening closing (depth + 1) rest with
  | none => rfl
  | some split => rfl

theorem skips_singleton {t : Token} (hopening : t ≠ opening) (hclosing : t ≠ closing) :
    Skips opening closing [t] := by
  intro depth rest
  rw [List.singleton_append, splitGroup?, if_neg hclosing, if_neg hopening]
  rfl

theorem Skips.append (h : Skips opening closing ts) (h' : Skips opening closing us) :
    Skips opening closing (ts ++ us) := by
  intro depth rest
  rw [List.append_assoc, h, h', Option.map_map]
  congr 1
  funext split
  exact Prod.ext (List.append_assoc ..).symm rfl

/-- Tokens that are not brackets of the group are passed over. -/
theorem skips_of_forall (h : ∀ t ∈ ts, t ≠ opening ∧ t ≠ closing) :
    Skips opening closing ts := by
  induction ts with
  | nil => exact skips_nil
  | cons t ts ih =>
    obtain ⟨⟨hopening, hclosing⟩, hrest⟩ := List.forall_mem_cons.1 h
    exact (skips_singleton hopening hclosing).append (ih hrest)

/-- A search from the closing bracket ends at the bracket that opens the same group. -/
theorem splitGroup?_group (h : Skips opening closing ts) (hne : opening ≠ closing)
    (rest : List Token) :
    splitGroup? opening closing 0 (closing :: (ts ++ opening :: rest)) =
      some (closing :: (ts ++ [opening]), rest) := by
  rw [splitGroup?, if_pos rfl, h 0, splitGroup?, if_neg hne, if_pos rfl,
    if_pos rfl]
  rfl

/-- A group with its brackets is passed over as a whole. -/
theorem Skips.group (h : Skips opening closing ts) (hne : opening ≠ closing) :
    Skips opening closing (closing :: ts ++ [opening]) := by
  intro depth rest
  -- The closing bracket goes one level deeper, and the opening one comes back.
  rw [List.append_assoc, List.cons_append, splitGroup?, if_pos rfl, h, List.singleton_append,
    splitGroup?, if_neg hne, if_pos rfl, if_neg (by omega),
    Nat.add_sub_cancel, Option.map_map, Option.map_map]
  congr 1
  funext split
  exact Prod.ext (by simp) rfl

end Skips

/-! ## What replaces a part -/

/-- What may stand in a class, in whatever order: literals, the empty word and dashes. -/
def HoldsMembers (inner : List Token) : Prop :=
  ∀ t ∈ inner, (∃ c, t = .literal c) ∨ t = .op .epsilon ∨ t = .op .dash

/-- What a class holds is not a bracket. -/
theorem HoldsMembers.ne_bracket {inner : List Token} (h : HoldsMembers inner) {t : Token}
    (ht : t ∈ inner) :
    t ≠ .op .openParen ∧ t ≠ .op .closeParen ∧ t ≠ .op .openBracket ∧ t ≠ .op .closeBracket := by
  rcases h t ht with ⟨c, rfl⟩ | rfl | rfl
  · exact ⟨nofun, nofun, nofun, nofun⟩
  · exact ⟨nofun, nofun, nofun, nofun⟩
  · exact ⟨nofun, nofun, nofun, nofun⟩

theorem IsClassBody.ne_bracket {inner : List Token} (h : IsClassBody inner) {t : Token}
    (ht : t ∈ inner) :
    t ≠ .op .openParen ∧ t ≠ .op .closeParen ∧ t ≠ .op .openBracket ∧ t ≠ .op .closeBracket :=
  HoldsMembers.ne_bracket h.members ht

/-- What tokens are as brackets group them. -/
inductive Extent where
  /-- A literal, the empty word, a group or a class. -/
  | operand
  /-- What a group can hold. -/
  | sequence
  deriving DecidableEq, Repr

/-- Replacing `e?` by `(e|&)` and `e+` by `(e e*)` in the first tokens gives the second, where `e`
is the operand right before the operator, in which the same has been done before. All else stays as
it is. -/
inductive Desugars : Extent → List Token → List Token → Prop
  | literal (c : Char) : Desugars .operand [.literal c] [.literal c]
  | epsilon : Desugars .operand [.op .epsilon] [.op .epsilon]
  | charClass {inner : List Token} (h : HoldsMembers inner) :
    Desugars .operand (.op .openBracket :: inner ++ [.op .closeBracket])
      (.op .openBracket :: inner ++ [.op .closeBracket])
  | group {ts us : List Token} (h : Desugars .sequence ts us) :
    Desugars .operand (.op .openParen :: ts ++ [.op .closeParen])
      (.op .openParen :: us ++ [.op .closeParen])
  | nil : Desugars .sequence [] []
  | operand {e e' ts us : List Token} (h : Desugars .operand e e') (h' : Desugars .sequence ts us) :
    Desugars .sequence (e ++ ts) (e' ++ us)
  | question {e e' ts us : List Token} (h : Desugars .operand e e')
    (h' : Desugars .sequence ts us) :
    Desugars .sequence (e ++ .op .question :: ts)
      (.op .openParen :: e' ++ [.op .alt, .op .epsilon, .op .closeParen] ++ us)
  | plus {e e' ts us : List Token} (h : Desugars .operand e e') (h' : Desugars .sequence ts us) :
    Desugars .sequence (e ++ .op .plus :: ts)
      (.op .openParen :: e' ++ e' ++ [.op .star, .op .closeParen] ++ us)
  | star {ts us : List Token} (h : Desugars .sequence ts us) :
    Desugars .sequence (.op .star :: ts) (.op .star :: us)
  | alt {ts us : List Token} (h : Desugars .sequence ts us) :
    Desugars .sequence (.op .alt :: ts) (.op .alt :: us)

namespace Desugars

variable {x : Extent} {vs ws : List Token}

theorem sequence (h : Desugars .operand ts us) : Desugars .sequence ts us := by
  have hsequence := h.operand .nil
  rwa [List.append_nil, List.append_nil] at hsequence

theorem append (h : Desugars .sequence ts us) (h' : Desugars .sequence vs ws) :
    Desugars .sequence (ts ++ vs) (us ++ ws) := by
  generalize hx : Extent.sequence = x at h
  induction h with
  | literal | epsilon | charClass | group => cases hx
  | nil => exact h'
  | operand h _ _ ih =>
    rw [List.append_assoc, List.append_assoc]
    exact .operand h (ih hx)
  | question h _ _ ih =>
    rw [List.append_assoc, List.append_assoc]
    exact .question h (ih hx)
  | plus h _ _ ih =>
    rw [List.append_assoc, List.append_assoc]
    exact .plus h (ih hx)
  | star _ ih => exact .star (ih hx)
  | alt _ ih => exact .alt (ih hx)

/-- Parentheses nest in what replaces a part. -/
theorem skips (h : Desugars x ts us) : Skips (.op .openParen) (.op .closeParen) us.reverse := by
  have hop : ∀ {o : Op}, o ≠ .openParen → o ≠ .closeParen →
      Skips (.op .openParen) (.op .closeParen) [.op o] := fun hopening hclosing =>
    skips_singleton (fun h => hopening (Token.op.inj h)) fun h => hclosing (Token.op.inj h)
  induction h with
  | literal c => exact skips_singleton nofun nofun
  | epsilon => exact hop nofun nofun
  | charClass h =>
    refine skips_of_forall fun t ht => ?_
    rcases List.mem_append.1 (List.mem_reverse.1 ht) with ht | ht
    · rcases List.mem_cons.1 ht with rfl | ht
      · exact ⟨nofun, nofun⟩
      · exact ⟨(h.ne_bracket ht).1, (h.ne_bracket ht).2.1⟩
    · rw [List.mem_singleton.1 ht]
      exact ⟨nofun, nofun⟩
  | group _ ih =>
    rw [List.reverse_append, List.reverse_singleton, List.reverse_cons]
    exact ih.group nofun
  | nil => exact skips_nil
  | operand _ _ ih ih' =>
    rw [List.reverse_append]
    exact ih'.append ih
  | question _ _ ih ih' =>
    have hbody := ((hop (o := .epsilon) nofun nofun).append (hop (o := .alt) nofun nofun)).append ih
    have hall := ih'.append (hbody.group nofun)
    simpa using hall
  | plus _ _ ih ih' =>
    have hbody := ((hop (o := .star) nofun nofun).append ih).append ih
    have hall := ih'.append (hbody.group nofun)
    simpa using hall
  | star _ ih | alt _ ih =>
    rw [List.reverse_cons]
    exact ih.append (hop nofun nofun)

end Desugars

/-- **The operand of a postfix operator is the literal, group or class right before it.** -/
theorem splitOperand?_desugars (h : Desugars .operand ts us) (before : List Token) :
    splitOperand? (us.reverse ++ before) = some (us.reverse, before) := by
  cases h with
  | literal c => rfl
  | epsilon => rfl
  | group h =>
    have hsplit := splitGroup?_group h.skips nofun before
    rw [List.reverse_append, List.reverse_singleton, List.reverse_cons, List.append_assoc,
      List.append_assoc, List.singleton_append, List.singleton_append]
    show ((splitGroup? _ _ 0 _).map _) = _
    rw [hsplit]
    rfl
  | charClass h =>
    have hskips : Skips (.op .openBracket) (.op .closeBracket) _ :=
      skips_of_forall fun t ht => (h.ne_bracket (List.mem_reverse.1 ht)).2.2
    have hsplit := splitGroup?_group hskips nofun before
    rw [List.reverse_append, List.reverse_singleton, List.reverse_cons, List.append_assoc,
      List.append_assoc, List.singleton_append, List.singleton_append]
    show ((splitGroup? _ _ 0 _).map _) = _
    rw [hsplit]
    rfl

/-! ## The pass over a part -/

/-- Tokens that neither open nor close a class are taken over inside one. -/
theorem desugarFrom_inClass {inner : List Token}
    (h : ∀ t ∈ inner, t ≠ .op .openBracket ∧ t ≠ .op .closeBracket) (out rest : List Token) :
    desugarFrom out true (inner ++ rest) = desugarFrom (inner.reverse ++ out) true rest := by
  induction inner generalizing out with
  | nil => rfl
  | cons t inner ih =>
    obtain ⟨⟨hopening, hclosing⟩, hrest⟩ := List.forall_mem_cons.1 h
    rw [List.cons_append, desugarFrom, Bool.not_true, Bool.false_and, if_neg Bool.false_ne_true,
      if_neg hopening, if_neg hclosing, ih hrest, List.reverse_cons, List.append_assoc]
    rfl

/-- Outside classes a token other than `?`, `+` and `[` is taken over. -/
theorem desugarFrom_cons {t : Token} (hquestion : t ≠ .op .question) (hplus : t ≠ .op .plus)
    (hbracket : t ≠ .op .openBracket) (out rest : List Token) :
    desugarFrom out false (t :: rest) = desugarFrom (t :: out) false rest := by
  rw [desugarFrom, if_neg, if_neg hbracket, ite_self]
  rw [beq_false_of_ne hquestion, beq_false_of_ne hplus]
  exact Bool.false_ne_true

/-- A class is taken over. -/
theorem desugarFrom_charClass {inner : List Token} (h : HoldsMembers inner)
    (out rest : List Token) :
    desugarFrom out false (.op .openBracket :: inner ++ [.op .closeBracket] ++ rest) =
      desugarFrom ((Token.op .openBracket :: inner ++ [Token.op .closeBracket]).reverse ++ out)
        false rest := by
  have hinner : ∀ t ∈ inner, t ≠ .op .openBracket ∧ t ≠ .op .closeBracket :=
    fun t ht => (h.ne_bracket ht).2.2
  calc desugarFrom out false (.op .openBracket :: inner ++ [.op .closeBracket] ++ rest)
      = desugarFrom (.op .openBracket :: out) true (inner ++ .op .closeBracket :: rest) := by
        rw [List.append_assoc]
        rfl
    _ = desugarFrom (inner.reverse ++ .op .openBracket :: out) true
          (.op .closeBracket :: rest) := desugarFrom_inClass hinner _ _
    _ = desugarFrom (.op .closeBracket :: (inner.reverse ++ .op .openBracket :: out)) false
          rest := rfl
    _ = _ := by simp

/-- **The pass writes what replaces a part** behind what it has written before. -/
theorem Desugars.desugarFrom_eq {x : Extent} (h : Desugars x ts us) (out rest : List Token) :
    desugarFrom out false (ts ++ rest) = desugarFrom (us.reverse ++ out) false rest := by
  induction h generalizing out rest with
  | literal c => rfl
  | epsilon => rfl
  | charClass h => exact desugarFrom_charClass h out rest
  | group _ ih =>
    rw [List.append_assoc, List.cons_append,
      desugarFrom_cons (t := .op .openParen) nofun nofun nofun, ih, List.singleton_append,
      desugarFrom_cons (t := .op .closeParen) nofun nofun nofun]
    simp
  | nil => rfl
  | operand _ _ ih ih' => rw [List.append_assoc, ih, ih', List.reverse_append, List.append_assoc]
  | question h _ ih ih' =>
    -- The operand that is found looking back is all of what replaces the one before.
    rw [List.append_assoc, ih, List.cons_append, desugarFrom]
    simp [splitOperand?_desugars h, ih']
  | plus h _ ih ih' =>
    rw [List.append_assoc, ih, List.cons_append, desugarFrom]
    simp [splitOperand?_desugars h, ih']
  | star _ ih =>
    rw [List.cons_append, desugarFrom_cons (t := .op .star) nofun nofun nofun, ih]
    simp
  | alt _ ih =>
    rw [List.cons_append, desugarFrom_cons (t := .op .alt) nofun nofun nofun, ih]
    simp

/-- **Tokens are replaced as the relation says.** -/
theorem desugar_eq (h : Desugars .sequence ts us) : desugar ts = .ok us := by
  have hrun := h.desugarFrom_eq [] []
  rw [List.append_nil, List.append_nil] at hrun
  rw [desugar, hrun, desugarFrom, List.reverse_reverse]

/-! ## Patterns without sugar -/

namespace Pattern

/-- Writes `p?` as `p|&` and `p+` as `p p*`. -/
def desugared : Pattern → Pattern
  | char c => char c
  | epsilon => epsilon
  | charClass inner => charClass inner
  | star p => star p.desugared
  | plus p => concat p.desugared (star p.desugared)
  | optional p => alt p.desugared epsilon
  | concat p q => concat p.desugared q.desugared
  | alt p q => alt p.desugared q.desugared

/-- The pattern holds neither `?` nor `+`. -/
def IsSugarFree : Pattern → Prop
  | char _ | epsilon | charClass _ => True
  | star p => p.IsSugarFree
  | plus _ | optional _ => False
  | concat p q | alt p q => p.IsSugarFree ∧ q.IsSugarFree

theorem isSugarFree_desugared (p : Pattern) : p.desugared.IsSugarFree := by
  induction p with
  | char | epsilon | charClass => trivial
  | star p ih => exact ih
  | plus p ih => exact ⟨ih, ih⟩
  | optional p ih => exact ⟨ih, trivial⟩
  | concat p q ihp ihq => exact ⟨ihp, ihq⟩
  | alt p q ihp ihq => exact ⟨ihp, ihq⟩

theorem language_desugared (p : Pattern) : p.desugared.language = p.language := by
  induction p with
  | char | epsilon | charClass => rfl
  | star p ih => rw [desugared, language, ih, language]
  | plus p ih =>
    show p.desugared.language * p.desugared.language∗ = _
    rw [ih, language]
  | optional p ih =>
    show p.desugared.language + 1 = _
    rw [ih, language]
  | concat p q ihp ihq => rw [desugared, language, ihp, ihq, language]
  | alt p q ihp ihq => rw [desugared, language, ihp, ihq, language]

end Pattern

/-- What the parts of a pattern are as brackets group them. -/
def Level.extent : Level → Extent
  | atom => .operand
  | suffixed | concat | alt => .sequence

/-- **What replaces a part of a pattern is read as the pattern without sugar.** -/
theorem Reads.exists_desugars (h : Reads lvl ts p) :
    ∃ us, Desugars lvl.extent ts us ∧ Reads lvl us p.desugared := by
  induction h with
  | char c => exact ⟨_, .literal c, .char c⟩
  | epsilon => exact ⟨_, .epsilon, .epsilon⟩
  | group _ ih =>
    obtain ⟨us, h, h'⟩ := ih
    exact ⟨_, .group h, .group h'⟩
  | charClass h => exact ⟨_, .charClass h.members, .charClass h⟩
  | ofAtom _ ih =>
    obtain ⟨us, h, h'⟩ := ih
    exact ⟨us, h.sequence, .ofAtom h'⟩
  | star _ ih =>
    obtain ⟨us, h, h'⟩ := ih
    exact ⟨_, .operand h (.star .nil), .star h'⟩
  | plus _ ih =>
    obtain ⟨us, h, h'⟩ := ih
    refine ⟨_, .plus h .nil, ?_⟩
    have hbody := Reads.concat (.ofSuffixed (.ofAtom h')) (.star h')
    have hgroup := Reads.group (.ofConcat hbody)
    rw [List.append_nil, Pattern.desugared]
    simpa using Reads.ofAtom hgroup
  | optional _ ih =>
    obtain ⟨us, h, h'⟩ := ih
    refine ⟨_, .question h .nil, ?_⟩
    have hbody := Reads.alt h'.ofAtom_alt (.ofSuffixed (.ofAtom .epsilon))
    rw [List.append_nil, Pattern.desugared]
    simpa using Reads.ofAtom (.group hbody)
  | ofSuffixed _ ih =>
    obtain ⟨us, h, h'⟩ := ih
    exact ⟨us, h, .ofSuffixed h'⟩
  | concat _ _ ih ih' =>
    obtain ⟨us, h, hreads⟩ := ih
    obtain ⟨vs, h', hreads'⟩ := ih'
    exact ⟨_, h.append h', .concat hreads hreads'⟩
  | ofConcat _ ih =>
    obtain ⟨us, h, h'⟩ := ih
    exact ⟨us, h, .ofConcat h'⟩
  | alt _ _ ih ih' =>
    obtain ⟨us, h, hreads⟩ := ih
    obtain ⟨vs, h', hreads'⟩ := ih'
    exact ⟨_, h.append (.alt h'), .alt hreads hreads'⟩

/-- A pattern is replaced as a whole by one without sugar. -/
theorem desugar_reads (h : Reads .alt ts p) :
    ∃ us, desugar ts = .ok us ∧ Reads .alt us p.desugared := by
  obtain ⟨us, hdesugars, hreads⟩ := h.exists_desugars
  exact ⟨us, desugar_eq hdesugars, hreads⟩

end Frontend.Regex
