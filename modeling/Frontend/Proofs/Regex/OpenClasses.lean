import Frontend.Proofs.Regex.Classes

/-!
# Every class is checked before and after the desugaring

Classes are read after `?` and `+` have been replaced. Replacing moves and repeats tokens, but
no class gets readable by it: if all classes can be read afterwards, then all of them could be
read before (`scanClasses_of_desugarFrom`). The reason is that a replacement puts a parenthesis
in front of the operand, which a class never holds, so the operand begins outside classes.
-/

namespace Frontend.Regex

/-! ## Scanning for classes -/

/-- Passes over one token; `inner` holds, in reverse, what has been read of a class that is not
closed yet. It fails where a class is closed that cannot be read. -/
def classStep (inner : Option (List Token)) (t : Token) : Option (Option (List Token)) :=
  match inner with
  | none => if t = .op .openBracket then some (some []) else some none
  | some ts =>
    if t = .op .closeBracket then
      if (classMembers ts.reverse).isOk then some none else none
    else some (some (t :: ts))

/-- Passes over tokens. -/
def scanClasses (inner : Option (List Token)) (ts : List Token) : Option (Option (List Token)) :=
  ts.foldlM classStep inner

variable {inner s : Option (List Token)} {t : Token} {ts us : List Token}

theorem classStep_none :
    classStep none t = if t = .op .openBracket then some (some []) else some none := rfl

theorem classStep_some :
    classStep (some ts) t =
      if t = .op .closeBracket then
        if (classMembers ts.reverse).isOk then some none else none
      else some (some (t :: ts)) := rfl

theorem scanClasses_cons :
    scanClasses inner (t :: ts) = (classStep inner t).bind fun s => scanClasses s ts :=
  List.foldlM_cons

theorem scanClasses_append :
    scanClasses inner (ts ++ us) = (scanClasses inner ts).bind fun s => scanClasses s us :=
  List.foldlM_append

/-- Where a scan of two parts ends, it has been somewhere between them. -/
theorem exists_scanClasses_between (h : scanClasses inner (ts ++ us) = some s) :
    ∃ between, scanClasses inner ts = some between ∧ scanClasses between us = some s :=
  Option.bind_eq_some_iff.1 (scanClasses_append ▸ h)

/-- Outside classes, tokens other than `[` are passed over. -/
theorem scanClasses_none_cons (ht : t ≠ .op .openBracket) :
    scanClasses none (t :: ts) = scanClasses none ts := by
  rw [scanClasses_cons, classStep_none, if_neg ht]
  rfl

/-- Classes can be written as alternatives exactly if a scan passes over all of them. -/
theorem exists_expandFrom_iff :
    (∃ us, expandFrom inner ts = .ok us) ↔ scanClasses inner ts = some none := by
  induction ts generalizing inner with
  | nil =>
    cases inner with
    | none => exact ⟨fun _ => rfl, fun _ => ⟨[], rfl⟩⟩
    | some before => exact iff_of_false (by simp [expandFrom]) (by simp [scanClasses])
  | cons t ts ih =>
    cases inner with
    | none =>
      rw [scanClasses_cons, classStep_none, expandFrom]
      split
      · exact ih
      · rw [exists_map_eq_ok_iff]
        exact ih
    | some before =>
      rw [scanClasses_cons, classStep_some, expandFrom]
      split
      · cases hk : classMembers before.reverse with
        | error e =>
          exact iff_of_false (by simp [bind, Except.bind]) (by simp [Except.isOk, Except.toBool])
        | ok k =>
          show (∃ us, (expandFrom none ts >>= _) = .ok us) ↔ scanClasses none ts = some none
          exact (exists_bind_eq_ok_iff fun us => ⟨_, rfl⟩).trans ih
      · exact ih

/-! ## Tokens that no class holds -/

/-- A token that a class may hold. -/
def Token.isMember : Token → Bool
  | literal _ | op .epsilon | op .dash => true
  | op _ => false

theorem isMember_of_classMembers (h : (classMembers ts).isOk = true) (ht : t ∈ ts) :
    t.isMember = true := by
  cases hk : classMembers ts with
  | error e =>
    rw [hk] at h
    cases h
  | ok k =>
    rcases (exists_classMembers_iff.1 ⟨k, hk⟩).members t ht with ⟨c, rfl⟩ | rfl | rfl
    · rfl
    · rfl
    · rfl

/-- A class that holds something else is not read to its end. -/
theorem scanClasses_ne_of_mem {before : List Token} (ht : t ∈ before)
    (hmember : t.isMember = false) : scanClasses (some before) ts ≠ some none := by
  induction ts generalizing before with
  | nil => exact nofun
  | cons u ts ih =>
    rw [scanClasses_cons, classStep_some]
    split
    · split
      · next hok =>
        have := isMember_of_classMembers hok (List.mem_reverse.2 ht)
        rw [hmember] at this
        cases this
      · exact nofun
    · exact ih (List.mem_cons_of_mem _ ht)

/-- Before a token that no class holds and that closes none, the scan is outside classes. -/
theorem eq_none_of_scanClasses_cons (h : scanClasses inner (t :: ts) = some none)
    (hmember : t.isMember = false) (hclose : t ≠ .op .closeBracket) : inner = none := by
  cases inner with
  | none => rfl
  | some before =>
    rw [scanClasses_cons, classStep_some, if_neg hclose] at h
    exact absurd h (scanClasses_ne_of_mem List.mem_cons_self hmember)

/-- After a token, a class is open if the token opens one, or does not close the one that is. -/
theorem isSome_of_classStep (h : classStep inner t = some s) :
    s.isSome = true ↔ t ≠ .op .closeBracket ∧ (t = .op .openBracket ∨ inner.isSome = true) := by
  cases inner with
  | none =>
    rw [classStep_none] at h
    split at h
    · next ht =>
      cases h
      simp [ht]
    · next ht =>
      cases h
      simp [ht]
  | some before =>
    rw [classStep_some] at h
    split at h
    · next ht =>
      split at h
      · cases h
        simp [ht]
      · cases h
    · next ht =>
      cases h
      simp [ht]

/-- Tokens that leave a class open leave one open wherever the scan is before them. -/
theorem isSome_of_scanClasses {inner' s' : Option (List Token)}
    (h : scanClasses inner ts = some s) (h' : scanClasses inner' ts = some s')
    (himp : inner.isSome = true → inner'.isSome = true) (hs : s.isSome = true) :
    s'.isSome = true := by
  induction ts generalizing inner inner' with
  | nil =>
    cases h
    cases h'
    exact himp hs
  | cons t ts ih =>
    rw [scanClasses_cons] at h h'
    obtain ⟨next, hnext, h⟩ := Option.bind_eq_some_iff.1 h
    obtain ⟨next', hnext', h'⟩ := Option.bind_eq_some_iff.1 h'
    refine ih h h' fun hopen => ?_
    obtain ⟨hclose, hopening⟩ := (isSome_of_classStep hnext).1 hopen
    exact (isSome_of_classStep hnext').2 ⟨hclose, hopening.imp_right himp⟩

/-! ## Replacing keeps out no class -/

/-- Putting tokens in front of one part of a split puts them in front of the whole. -/
theorem append_of_map_append {split : Option (List Token × List Token)} (front : List Token)
    {whole group more : List Token} (hsplit : ∀ g m, split = some (g, m) → g ++ m = whole)
    (h : (split.map fun (g, m) => (front ++ g, m)) = some (group, more)) :
    group ++ more = front ++ whole := by
  obtain ⟨⟨g, m⟩, hgm, heq⟩ := Option.map_eq_some_iff.1 h
  cases heq
  rw [List.append_assoc, hsplit _ _ hgm]

theorem append_of_splitGroup? {opening closing : Token} {depth : Nat} {group more : List Token}
    (h : splitGroup? opening closing depth ts = some (group, more)) : group ++ more = ts := by
  induction ts generalizing depth group more with
  | nil => cases h
  | cons t ts ih =>
    unfold splitGroup? at h
    split at h
    · exact append_of_map_append [t] (fun _ _ => ih) h
    · split at h
      · split at h
        · cases h
          rfl
        · exact append_of_map_append [t] (fun _ _ => ih) h
      · exact append_of_map_append [t] (fun _ _ => ih) h

/-- The operand is cut off at the front. -/
theorem append_of_splitOperand? {operand before : List Token}
    (h : splitOperand? ts = some (operand, before)) : operand ++ before = ts := by
  unfold splitOperand? at h
  dsimp only at h
  have hstars : ts.takeWhile (· == .op .star) ++ ts.dropWhile (· == .op .star) = ts :=
    List.takeWhile_append_dropWhile
  split at h
  · cases h
  · next t rest heq =>
    rw [heq] at hstars
    split at h
    · rw [append_of_map_append _ (fun _ _ => append_of_splitGroup?) h, hstars]
    · split at h
      · rw [append_of_map_append _ (fun _ _ => append_of_splitGroup?) h, hstars]
      · split at h
        · cases h
          rw [List.append_assoc, List.singleton_append, hstars]
        · cases h

/-- A part in front of which a parenthesis is put ends outside classes, if what comes next is
a token that no class holds. -/
theorem scanClasses_of_group {before operand more : List Token}
    (h : scanClasses none (before ++ .op .openParen :: (operand ++ t :: more)) = some none)
    (hmember : t.isMember = false) (hclose : t ≠ .op .closeBracket) :
    scanClasses none before = some none ∧ scanClasses none operand = some none ∧
      scanClasses none (t :: more) = some none := by
  obtain ⟨s, hbefore, h⟩ := exists_scanClasses_between h
  -- A class that was open here would hold the parenthesis.
  obtain rfl := eq_none_of_scanClasses_cons h rfl nofun
  rw [scanClasses_none_cons (t := .op .openParen) nofun] at h
  obtain ⟨s, hoperand, h⟩ := exists_scanClasses_between h
  obtain rfl := eq_none_of_scanClasses_cons h hmember hclose
  exact ⟨hbefore, hoperand, h⟩

/-- The classes of the parts that a replacement is made of can be read each by itself. -/
theorem scanClasses_parts_of_sugar {before operand : List Token}
    (hsugar : t = .op .question ∨ t = .op .plus)
    (h : scanClasses none ((.op .closeParen ::
      (if t = .op .question then .op .epsilon :: .op .alt :: operand
        else .op .star :: operand ++ operand) ++ .op .openParen :: before).reverse ++ ts) =
      some none) :
    scanClasses none before.reverse = some none ∧
      scanClasses none operand.reverse = some none ∧ scanClasses none ts = some none := by
  rcases hsugar with rfl | rfl
  · have h' : scanClasses none (before.reverse ++ .op .openParen ::
        (operand.reverse ++ .op .alt :: .op .epsilon :: .op .closeParen :: ts)) = some none := by
      simpa using h
    obtain ⟨hbefore, hoperand, hrest⟩ := scanClasses_of_group h' rfl nofun
    exact ⟨hbefore, hoperand, hrest⟩
  · have h' : scanClasses none (before.reverse ++ .op .openParen ::
        ((operand.reverse ++ operand.reverse) ++ .op .star :: .op .closeParen :: ts)) =
          some none := by
      simpa using h
    obtain ⟨hbefore, htwice, hrest⟩ := scanClasses_of_group h' rfl nofun
    obtain ⟨s, hoperand, hagain⟩ := exists_scanClasses_between htwice
    have hs : s = none := by
      cases hopen : s.isSome with
      | false => exact Option.not_isSome_iff_eq_none.1 (by rw [hopen]; exact Bool.false_ne_true)
      | true =>
        -- An operand that leaves a class open would leave one open the second time as well.
        have := isSome_of_scanClasses hoperand hagain nofun hopen
        cases this
    exact ⟨hbefore, hs ▸ hoperand, hrest⟩

/-- **If every class can be read after the desugaring, every class could be read before.** -/
theorem scanClasses_of_desugarFrom {out : List Token} {inClass : Bool}
    (h : desugarFrom out inClass ts = .ok us) (hus : scanClasses none us = some none) :
    scanClasses none (out.reverse ++ ts) = some none := by
  induction ts generalizing out inClass with
  | nil =>
    cases h
    rwa [List.append_nil]
  | cons t ts ih =>
    unfold desugarFrom at h
    split at h
    · next hsugar =>
      rw [Bool.and_eq_true, Bool.or_eq_true, beq_iff_eq, beq_iff_eq] at hsugar
      obtain ⟨-, hsugar⟩ := hsugar
      have hopening : t ≠ .op .openBracket := by
        rcases hsugar with rfl | rfl
        · decide
        · decide
      split at h
      · cases h
      · next operand before hsplit =>
        -- Every part of what stands there now is read outside classes, so it was before.
        obtain ⟨hbefore, hoperand, hrest⟩ := scanClasses_parts_of_sugar hsugar (ih h)
        rw [← append_of_splitOperand? hsplit, List.reverse_append, List.append_assoc,
          scanClasses_append, hbefore, Option.bind_some, scanClasses_append, hoperand,
          Option.bind_some, scanClasses_none_cons hopening, hrest]
    · have hread := ih h
      rwa [List.reverse_cons, List.append_assoc] at hread

end Frontend.Regex
