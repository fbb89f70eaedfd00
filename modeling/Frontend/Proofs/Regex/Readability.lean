import Frontend.Regex.Operators
import Frontend.Proofs.Regex.OpenClasses

/-!
# What passes every check can be read

Tokens whose brackets nest, whose operators have their operands and whose classes can all be
read are a pattern (`exists_reads`). The tokens are gone through from the left. What has been
passed consists of the groups that are still open, and in each of these of what its reading
has come to (`Position`): at the start of an alternative, behind an atom, behind a postfix
operator, or inside a class. A token that passes the checks leads from one position to the
next (`Position.exists_next`).
-/

namespace Frontend.Regex

/-! ## Where a reading from the left can be -/

/-- Tokens of a group after which an alternative starts. -/
def Starts (ts : List Token) : Prop :=
  ts = [] ∨ ∃ us p, ts = us ++ [.op .alt] ∧ Reads .alt us p

/-- Tokens of a group that end in an expression of the last alternative. -/
def Full (ts : List Token) : Prop :=
  ∃ us vs p, ts = us ++ vs ∧ Starts us ∧ Reads .concat vs p

/-- Tokens of a group that an expression can follow. -/
def Before (ts : List Token) : Prop := Starts ts ∨ Full ts

/-- What stands before a group that is still open: the parenthesis that opens it, the tokens
before this one in the group around it, and so on for as many groups as are open. -/
inductive Frames : Nat → List Token → Prop
  | nil : Frames 0 []
  | push {depth : Nat} {ts us : List Token} (h : Frames depth ts) (h' : Before us) :
    Frames (depth + 1) (ts ++ us ++ [.op .openParen])

/-- The tokens passed so far, with the class that is open, if any, and the brackets that are
still to be closed. -/
inductive Position : Option (List Token) → List Op → List Token → Prop
  | start {depth : Nat} {ts us : List Token} (h : Frames depth ts) (h' : Starts us) :
    Position none (List.replicate depth .openParen) (ts ++ us)
  | atom {depth : Nat} {ts us vs : List Token} {p : Pattern} (h : Frames depth ts)
    (h' : Before us) (h'' : Reads .atom vs p) :
    Position none (List.replicate depth .openParen) (ts ++ us ++ vs)
  | suffixed {depth : Nat} {ts us vs : List Token} {o : Op} {p : Pattern}
    (h : Frames depth ts) (h' : Before us) (h'' : Reads .suffixed (vs ++ [.op o]) p)
    (ho : o.isPostfix = true) :
    Position none (List.replicate depth .openParen) (ts ++ us ++ (vs ++ [.op o]))
  | inClass {depth : Nat} {ts us inner : List Token} (h : Frames depth ts) (h' : Before us) :
    Position (some inner) (.openBracket :: List.replicate depth .openParen)
      (ts ++ us ++ .op .openBracket :: inner.reverse)

variable {depth : Nat} {ts us vs : List Token} {p : Pattern}

theorem Full.exists_reads (h : Full ts) : ∃ p, Reads .alt ts p := by
  obtain ⟨us, vs, p, rfl, rfl | ⟨ws, q, rfl, hq⟩, hp⟩ := h
  · exact ⟨p, .ofConcat hp⟩
  · rw [List.append_assoc]
    exact ⟨.alt q p, .alt hq hp⟩

/-- An expression behind tokens that it can follow. -/
theorem Before.append (h : Before ts) (h' : Reads .suffixed us p) : Full (ts ++ us) := by
  rcases h with h | ⟨ts, vs, q, rfl, hts, hq⟩
  · exact ⟨ts, us, p, rfl, h, .ofSuffixed h'⟩
  · exact ⟨ts, vs ++ us, .concat q p, List.append_assoc .., hts, .concat hq h'⟩

theorem Full.starts (h : Full ts) : Starts (ts ++ [.op .alt]) := by
  obtain ⟨p, hp⟩ := h.exists_reads
  exact .inr ⟨ts, p, rfl, hp⟩

/-- What stands before a group ends in its parenthesis. -/
theorem Frames.getLast? (h : Frames depth ts) :
    depth = 0 ∧ ts = [] ∨ 0 < depth ∧ ts.getLast? = some (.op .openParen) := by
  cases h with
  | nil => exact .inl ⟨rfl, rfl⟩
  | push _ _ => exact .inr ⟨Nat.succ_pos _, List.getLast?_concat⟩

/-- At the start of an alternative, the last token is a bar or a parenthesis. -/
theorem Starts.getLast? (h : Frames depth ts) (h' : Starts us) :
    depth = 0 ∧ ts ++ us = [] ∨ 0 < depth ∧ (ts ++ us).getLast? = some (.op .openParen) ∨
      (ts ++ us).getLast? = some (.op .alt) := by
  rcases h' with rfl | ⟨vs, p, rfl, -⟩
  · rw [List.append_nil]
    rcases h.getLast? with h | h
    · exact .inl h
    · exact .inr (.inl h)
  · rw [← List.append_assoc]
    exact .inr (.inr List.getLast?_concat)

/-! ## The checks that are left -/

/-- The checks that the tokens ahead still have to pass. -/
structure Passes (inner : Option (List Token)) (opened : List Op) (prev : Option Token)
    (ahead : List Token) : Prop where
  nests : nests opened ahead = true
  operators : checkFrom prev inner.isSome ahead = .ok ()
  classes : scanClasses inner ahead = some none
  written : ∀ t ∈ ahead, t ≠ .op .concat

variable {inner : Option (List Token)} {opened : List Op} {prev : Option Token} {t : Token}
  {ahead : List Token}

/-- A parenthesis or bracket. -/
def Token.isBracket : Token → Bool
  | op .openParen | op .closeParen | op .openBracket | op .closeBracket => true
  | _ => false

/-- A token outside classes is at no fault, and the check goes on behind it. -/
theorem operators_cons (h : checkFrom prev false (t :: ahead) = .ok ()) :
    sequenceFault? prev t = none ∧
      checkFrom (some t) (t == .op .openBracket) ahead = .ok () := by
  rw [checkFrom, if_neg Bool.false_ne_true] at h
  split at h
  · cases h
  · next hfault => exact ⟨hfault, h⟩

/-- A token other than brackets and parentheses says nothing about how these nest. -/
theorem nests_cons (ht : t.isBracket = false) : nests opened (t :: ahead) = nests opened ahead := by
  rw [nests.eq_def]
  split
  · next heq => cases heq
  · next heq =>
    cases heq
    cases ht
  · next heq =>
    cases heq
    cases ht
  · next heq =>
    cases heq
    cases ht
  · next heq =>
    cases heq
    cases ht
  · next heq =>
    cases heq
    cases ht
  · next heq =>
    cases heq
    cases ht
  · next heq =>
    cases heq
    rfl

theorem nests_of_cons (h : nests opened (t :: ahead) = true) (ht : t.isBracket = false) :
    nests opened ahead = true :=
  (nests_cons ht).symm.trans h

/-- A parenthesis is closed only in a group. -/
theorem exists_of_nests_closeParen
    (h : nests (List.replicate depth .openParen) (.op .closeParen :: ahead) = true) :
    ∃ outer, depth = outer + 1 ∧ nests (List.replicate outer .openParen) ahead = true := by
  cases depth with
  | zero => cases h
  | succ outer => exact ⟨outer, rfl, h⟩

/-- A bracket is closed only in a class. -/
theorem not_nests_closeBracket :
    ¬ nests (List.replicate depth .openParen) (.op .closeBracket :: ahead) = true := by
  cases depth with
  | zero => exact Bool.false_ne_true
  | succ outer => exact Bool.false_ne_true

/-- A postfix operator or a bar is at fault exactly if it is dangling. -/
theorem sequenceFault?_eq_none_iff {o : Op} (ho : o.isPostfix = true ∨ o = .alt) :
    sequenceFault? prev (.op o) = none ↔ isDangling prev o = false := by
  have hop : (o.isPostfix || o == .alt) = true := by
    rcases ho with ho | rfl
    · rw [ho, Bool.true_or]
    · rfl
  rw [sequenceFault?, if_pos hop]
  by_cases hdangling : isDangling prev o = true
  · rw [if_pos hdangling, hdangling]
    exact iff_of_false nofun nofun
  · rw [if_neg hdangling]
    exact iff_of_true rfl (Bool.eq_false_iff.2 hdangling)

/-- At the start of an alternative a postfix operator or a bar is dangling. -/
theorem isDangling_of_starts (o : Op) (h : Frames depth ts) (h' : Starts us) :
    isDangling (ts ++ us).getLast? o = true := by
  rcases h'.getLast? h with ⟨-, hnil⟩ | ⟨-, hlast⟩ | hlast
  · rw [hnil]
    rfl
  · rw [hlast]
    rfl
  · rw [hlast]
    rfl

/-- A postfix operator or a bar at the start of an alternative is a fault. -/
theorem sequenceFault?_ne_none_of_starts {o : Op} (h : Frames depth ts) (h' : Starts us)
    (ho : o.isPostfix = true ∨ o = .alt) :
    sequenceFault? (ts ++ us).getLast? (.op o) ≠ none := by
  rw [Ne, sequenceFault?_eq_none_iff ho, isDangling_of_starts o h h']
  exact Bool.noConfusion

/-! ## From one position to the next -/

/-- Outside classes, the tokens of the innermost group are known. -/
theorem Position.exists_before {done : List Token} (h : Position none opened done) :
    ∃ depth ts us, opened = List.replicate depth .openParen ∧ done = ts ++ us ∧
      Frames depth ts ∧ Before us := by
  cases h with
  | start h h' => exact ⟨_, _, _, rfl, rfl, h, .inl h'⟩
  | atom h h' h'' => exact ⟨_, _, _, rfl, List.append_assoc .., h, .inr (h'.append (.ofAtom h''))⟩
  | suffixed h h' h'' => exact ⟨_, _, _, rfl, List.append_assoc .., h, .inr (h'.append h'')⟩

/-- Inside a class, the next token is a member or closes the class. -/
theorem exists_next_inClass {members : List Token} (h : Frames depth ts) (h' : Before us)
    (hp : Passes (some members) (.openBracket :: List.replicate depth .openParen) prev
      (t :: ahead)) :
    ∃ inner opened, Position inner opened
      (ts ++ us ++ .op .openBracket :: members.reverse ++ [t]) ∧
      Passes inner opened (some t) ahead := by
  have hwritten : ∀ u ∈ ahead, u ≠ .op .concat := fun u hu => hp.written u (.tail _ hu)
  have hclasses := hp.classes
  rw [scanClasses_cons, classStep_some] at hclasses
  by_cases ht : t = .op .closeBracket
  · subst ht
    rw [if_pos rfl] at hclasses
    cases hk : classMembers members.reverse with
    | error e =>
      rw [hk] at hclasses
      cases hclasses
    | ok k =>
      rw [hk] at hclasses
      have hbody := exists_classMembers_iff.1 ⟨k, hk⟩
      refine ⟨none, _, ?_, hp.nests, hp.operators, hclasses, hwritten⟩
      rw [List.append_assoc (ts ++ us)]
      exact .atom h h' (.charClass hbody)
  · rw [if_neg ht, Option.bind_some] at hclasses
    -- Anything else could not be read when the class is closed.
    have hmember : t.isMember = true := by
      cases hm : t.isMember with
      | false => exact absurd hclasses (scanClasses_ne_of_mem List.mem_cons_self hm)
      | true => rfl
    have hbracket : t.isBracket = false := by
      cases t with
      | literal c => rfl
      | op o =>
        cases o with
        | epsilon | dash => rfl
        | _ => cases hmember
    have hoperators := hp.operators
    rw [Option.isSome_some, checkFrom, if_pos rfl, bne_iff_ne.2 ht] at hoperators
    refine ⟨some (t :: members), _, ?_, nests_of_cons hp.nests hbracket, hoperators,
      hclasses, hwritten⟩
    rw [List.append_assoc (ts ++ us)]
    have hposition : Position (some (t :: members)) _ _ := .inClass h h'
    rwa [List.reverse_cons] at hposition

/-- A group is closed behind an expression, and is an atom of the group around it. -/
theorem exists_next_closeParen (h : Frames depth ts) (h' : Before us)
    (hnests : nests (List.replicate depth .openParen) (.op .closeParen :: ahead) = true)
    (hfault : sequenceFault? (ts ++ us).getLast? (.op .closeParen) = none) :
    ∃ opened, Position none opened (ts ++ us ++ [.op .closeParen]) ∧
      nests opened ahead = true := by
  obtain ⟨outer, rfl, hahead⟩ := exists_of_nests_closeParen hnests
  refine ⟨_, ?_, hahead⟩
  rcases h' with h' | h'
  · rcases h'.getLast? h with ⟨hzero, -⟩ | ⟨-, hlast⟩ | hlast
    · exact absurd hzero (Nat.succ_ne_zero outer)
    · rw [hlast] at hfault
      cases hfault
    · rw [hlast] at hfault
      cases hfault
  · obtain ⟨p, hp⟩ := h'.exists_reads
    -- The innermost frame is taken off, and the group is an atom behind the tokens in it.
    cases h with
    | @push depth ts ws h hws =>
      have hposition := Position.atom h hws (.group hp)
      rwa [show ts ++ ws ++ (.op .openParen :: us ++ [.op .closeParen]) =
        ts ++ ws ++ [.op .openParen] ++ us ++ [.op .closeParen] by simp] at hposition

/-- A postfix operator stands behind an atom. -/
theorem Position.next_postfix {done : List Token} {o : Op} (h : Position none opened done)
    (ho : o = .star ∨ o = .plus ∨ o = .question)
    (hfault : sequenceFault? done.getLast? (.op o) = none) :
    Position none opened (done ++ [.op o]) := by
  have hpostfix : o.isPostfix = true := by
    rcases ho with rfl | rfl | rfl
    · rfl
    · rfl
    · rfl
  cases h with
  | start h h' => exact absurd hfault (sequenceFault?_ne_none_of_starts h h' (.inl hpostfix))
  | @atom depth ts us vs p h h' h'' =>
    rw [List.append_assoc (ts ++ us)]
    rcases ho with rfl | rfl | rfl
    · exact .suffixed h h' (.star h'') rfl
    · exact .suffixed h h' (.plus h'') rfl
    · exact .suffixed h h' (.optional h'') rfl
  | @suffixed depth ts us vs o' p h h' h'' ho' =>
    -- Two postfix operators in a row are a fault.
    rw [← List.append_assoc, List.getLast?_concat, sequenceFault?_eq_none_iff (.inl hpostfix),
      isDangling, ho', hpostfix, Bool.and_self, Bool.or_true] at hfault
    cases hfault

/-- **A token that passes the checks leads on.** -/
theorem Position.exists_next {done : List Token} (h : Position inner opened done)
    (hp : Passes inner opened done.getLast? (t :: ahead)) :
    ∃ inner' opened', Position inner' opened' (done ++ [t]) ∧
      Passes inner' opened' (some t) ahead := by
  cases inner with
  | some members =>
    cases h with
    | inClass h h' => exact exists_next_inClass h h' hp
  | none =>
    obtain ⟨depth, ts, us, rfl, rfl, hframes, hbefore⟩ := h.exists_before
    obtain ⟨hfault, hoperators⟩ := operators_cons hp.operators
    have hwritten : ∀ u ∈ ahead, u ≠ .op .concat := fun u hu => hp.written u (.tail _ hu)
    have hnests := hp.nests
    have hclasses := hp.classes
    cases t with
    | literal c =>
      exact ⟨none, _, .atom hframes hbefore (.char c), nests_of_cons hnests rfl, hoperators,
        hclasses, hwritten⟩
    | op o =>
      cases o with
      | openParen =>
        refine ⟨none, List.replicate (depth + 1) .openParen, ?_, hnests, hoperators, hclasses,
          hwritten⟩
        have hposition := Position.start (hframes.push hbefore) (.inl rfl)
        rwa [List.append_nil] at hposition
      | closeParen =>
        obtain ⟨opened', hposition, hahead⟩ :=
          exists_next_closeParen hframes hbefore hnests hfault
        exact ⟨none, opened', hposition, hahead, hoperators, hclasses, hwritten⟩
      | openBracket =>
        exact ⟨some [], .openBracket :: List.replicate depth .openParen,
          .inClass hframes hbefore, hnests, hoperators, hclasses, hwritten⟩
      | closeBracket => exact absurd hnests not_nests_closeBracket
      | star =>
        exact ⟨none, _, h.next_postfix (.inl rfl) hfault, nests_of_cons hnests rfl, hoperators,
          hclasses, hwritten⟩
      | plus =>
        exact ⟨none, _, h.next_postfix (.inr (.inl rfl)) hfault, nests_of_cons hnests rfl,
          hoperators, hclasses, hwritten⟩
      | question =>
        exact ⟨none, _, h.next_postfix (.inr (.inr rfl)) hfault, nests_of_cons hnests rfl,
          hoperators, hclasses, hwritten⟩
      | alt =>
        rcases hbefore with hstarts | hfull
        · exact absurd hfault (sequenceFault?_ne_none_of_starts hframes hstarts (.inr rfl))
        · refine ⟨none, List.replicate depth .openParen, ?_, nests_of_cons hnests rfl,
            hoperators, hclasses, hwritten⟩
          rw [List.append_assoc]
          exact .start hframes hfull.starts
      | dash => cases hfault
      | epsilon =>
        exact ⟨none, _, .atom hframes hbefore .epsilon, nests_of_cons hnests rfl, hoperators,
          hclasses, hwritten⟩
      | concat => exact absurd rfl (hp.written _ List.mem_cons_self)

/-! ## Reading to the end -/

/-- At the end all groups are closed, and no alternative is left to be read. -/
theorem Position.exists_reads_of_end {done : List Token} (h : Position inner opened done)
    (hp : Passes inner opened done.getLast? []) (hne : done ≠ []) :
    ∃ p, Reads .alt done p := by
  cases inner with
  | some members => cases hp.classes
  | none =>
    obtain ⟨depth, ts, us, rfl, rfl, hframes, hbefore⟩ := h.exists_before
    cases depth with
    | succ depth => cases hp.nests
    | zero =>
      cases hframes with
      | nil =>
        rcases hbefore with hstarts | hfull
        · have hoperators := hp.operators
          rcases hstarts.getLast? .nil with ⟨-, hnil⟩ | ⟨hlt, -⟩ | hlast
          · exact absurd hnil hne
          · exact absurd hlt (Nat.lt_irrefl 0)
          · rw [hlast] at hoperators
            cases hoperators
        · exact hfull.exists_reads

/-- Tokens ahead that pass the checks complete a pattern. -/
theorem Position.exists_reads {done : List Token} (h : Position inner opened done)
    (hp : Passes inner opened done.getLast? ahead) (hne : done ++ ahead ≠ []) :
    ∃ p, Reads .alt (done ++ ahead) p := by
  induction ahead generalizing inner opened done with
  | nil =>
    rw [List.append_nil] at hne ⊢
    exact h.exists_reads_of_end hp hne
  | cons t ahead ih =>
    obtain ⟨inner', opened', hnext, hahead⟩ := h.exists_next hp
    rw [List.append_cons] at hne ⊢
    exact ih hnext (by rwa [List.getLast?_concat]) hne

/-- **Tokens that pass every check are a pattern.** -/
theorem exists_reads (hp : Passes none [] none ts) (hne : ts ≠ []) : ∃ p, Reads .alt ts p := by
  have hstart : Position none [] [] := .start .nil (.inl rfl)
  exact hstart.exists_reads hp hne

end Frontend.Regex
