import Frontend.Proofs.Regex.Compilation
import Frontend.Proofs.Text.Digits

/-!
# The characters of a pattern

Which characters occur in the words of a language, and what that says of patterns: no word of a
pattern holds a blank character, since blank characters are left out of a pattern and no range
holds one (`Reads.not_blank`). Every symbol of an expression occurs in one of its words, so the
automaton of a text knows no blank character either (`not_blank_of_mem_alphabet`).
-/

namespace Frontend.Regex

open scoped Computability

variable {c : Char} {L M : Language Char}

/-- A character occurs in a word of the language. -/
def Occurs (c : Char) (L : Language Char) : Prop := ∃ w ∈ L, c ∈ w

namespace Occurs

theorem of_add (h : Occurs c (L + M)) : Occurs c L ∨ Occurs c M := by
  obtain ⟨w, hw, hc⟩ := h
  exact ((Language.mem_add _ _ _).1 hw).imp (fun hw => ⟨w, hw, hc⟩) fun hw => ⟨w, hw, hc⟩

theorem of_mul (h : Occurs c (L * M)) : Occurs c L ∨ Occurs c M := by
  obtain ⟨w, hw, hc⟩ := h
  obtain ⟨u, hu, v, hv, rfl⟩ := Language.mem_mul.1 hw
  exact (List.mem_append.1 hc).imp (fun hc => ⟨u, hu, hc⟩) fun hc => ⟨v, hv, hc⟩

theorem of_kstar (h : Occurs c L∗) : Occurs c L := by
  obtain ⟨w, hw, hc⟩ := h
  obtain ⟨parts, rfl, hparts⟩ := Language.mem_kstar.1 hw
  obtain ⟨v, hv, hc⟩ := List.mem_flatten.1 hc
  exact ⟨v, hparts v hv, hc⟩

theorem not_one : ¬ Occurs c 1 := by
  rintro ⟨w, rfl, hc⟩
  cases hc

theorem eq_of_singleton {d : Char} (h : Occurs c {[d]}) : c = d := by
  obtain ⟨w, rfl, hc⟩ := h
  exact List.mem_singleton.1 hc

end Occurs

/-! ## Patterns -/

/-- What a text spells are its own characters. -/
theorem Spells.mem_of_literal {cs : List Char} {ts : List Token} (h : Spells cs ts)
    (hc : .literal c ∈ ts) : c ∈ cs := by
  have hchar : ∀ d, Token.literal c = .ofChar d → c = d := by
    intro d hd
    unfold Token.ofChar at hd
    split at hd
    · cases hd
    · exact Token.literal.inj hd
  induction h with
  | nil => cases hc
  | escape d _ ih =>
    rcases List.mem_cons.1 hc with hd | hc
    · rw [Token.literal.inj hd]
      exact .tail _ (.head _)
    · exact .tail _ (.tail _ (ih hc))
  | dot _ ih => exact .tail _ (ih hc)
  | char _ _ _ ih =>
    rcases List.mem_cons.1 hc with hd | hc
    · rw [hchar _ hd]
      exact .head _
    · exact .tail _ (ih hc)

/-- A range holds letters or digits. -/
theorem not_blank_of_sameKind {lo hi : Char} (h : sameKind lo hi = true) (hlo : lo ≤ c)
    (hhi : c ≤ hi) : Text.isBlank c = false := by
  have hle : ∀ a b : Char, a ≤ b ↔ a.toNat ≤ b.toNat := fun a b => UInt32.le_iff_toNat_le
  obtain ⟨hlo', hhi'⟩ := isAlphanum_of_sameKind h
  rw [hle] at hlo hhi
  exact Text.isBlank_eq_false_of_lt ((Text.toNat_of_isAlphanum hlo').1.trans_le hlo)
    (hhi.trans_lt (Text.toNat_of_isAlphanum hhi').2)

/-- **No word of a pattern holds a blank character**, if no literal in it is blank. -/
theorem Reads.not_blank {lvl : Level} {ts : List Token} {p : Pattern} (h : Reads lvl ts p)
    (hts : ∀ c, .literal c ∈ ts → Text.isBlank c = false) (hc : Occurs c p.language) :
    Text.isBlank c = false := by
  induction h with
  | char d => exact hc.eq_of_singleton ▸ hts d (.head _)
  | epsilon => exact absurd hc Occurs.not_one
  | group _ ih => exact ih (fun d hd => hts d (by simp [hd])) hc
  | @charClass inner hbody =>
    obtain ⟨w, hw, hc⟩ := hc
    cases hw with
    | literal hd =>
      rw [List.mem_singleton.1 hc]
      exact hts _ (by simp [hd])
    | @range lo hi d hinfix hlo hhi =>
      rw [List.mem_singleton.1 hc]
      obtain ⟨front, rest, hinner⟩ := hinfix
      obtain ⟨lo', hi', hlo', hhi', hkind, -⟩ :=
        hbody.ranges (front ++ [.literal lo]) (.literal hi :: rest) (by simp [← hinner])
      rw [List.getLast?_concat, Option.some.injEq, Token.literal.injEq] at hlo'
      rw [List.head?_cons, Option.some.injEq, Token.literal.injEq] at hhi'
      subst hlo' hhi'
      exact not_blank_of_sameKind hkind hlo hhi
    | epsilon => cases hc
  | ofAtom _ ih | ofSuffixed _ ih | ofConcat _ ih => exact ih hts hc
  | star _ ih => exact ih (fun d hd => hts d (List.mem_append_left _ hd)) hc.of_kstar
  | plus _ ih =>
    exact ih (fun d hd => hts d (List.mem_append_left _ hd)) (hc.of_mul.elim id .of_kstar)
  | optional _ ih =>
    exact ih (fun d hd => hts d (List.mem_append_left _ hd))
      (hc.of_add.resolve_right Occurs.not_one)
  | concat _ _ ih ih' =>
    rcases hc.of_mul with hc | hc
    · exact ih (fun d hd => hts d (List.mem_append_left _ hd)) hc
    · exact ih' (fun d hd => hts d (List.mem_append_right _ hd)) hc
  | alt _ _ ih ih' =>
    rcases hc.of_add with hc | hc
    · exact ih (fun d hd => hts d (List.mem_append_left _ hd)) hc
    · exact ih' (fun d hd => hts d (List.mem_append_right _ (.tail _ hd))) hc

/-! ## Expressions -/

namespace Expr

/-- No expression is without words. -/
theorem exists_mem_language (e : Expr) : ∃ w, w ∈ e.language := by
  induction e with
  | symbol p c => exact ⟨[c], rfl⟩
  | epsilon => exact ⟨[], rfl⟩
  | marker p => exact ⟨[], rfl⟩
  | star e _ => exact ⟨[], Language.nil_mem_kstar _⟩
  | concat l r ihl ihr =>
    obtain ⟨u, hu⟩ := ihl
    obtain ⟨v, hv⟩ := ihr
    exact ⟨u ++ v, Language.append_mem_mul hu hv⟩
  | alt l r ihl _ =>
    obtain ⟨u, hu⟩ := ihl
    exact ⟨u, (Language.mem_add _ _ _).2 (.inl hu)⟩

/-- **Every symbol of an expression occurs in one of its words.** -/
theorem occurs_of_mem_symbols {e : Expr} {p : Nat} (h : (p, c) ∈ e.symbols) :
    Occurs c e.language := by
  induction e with
  | symbol q d =>
    obtain ⟨-, rfl⟩ := Prod.mk.inj (List.mem_singleton.1 h)
    exact ⟨[c], rfl, List.mem_singleton_self c⟩
  | epsilon => cases h
  | marker q => cases h
  | star e ih =>
    obtain ⟨w, hw, hc⟩ := ih h
    exact ⟨w, Language.mem_kstar.2 ⟨[w], by simp, by simpa using hw⟩, hc⟩
  | concat l r ihl ihr =>
    rcases List.mem_append.1 h with h | h
    · obtain ⟨u, hu, hc⟩ := ihl h
      obtain ⟨v, hv⟩ := r.exists_mem_language
      exact ⟨u ++ v, Language.append_mem_mul hu hv, List.mem_append_left _ hc⟩
    · obtain ⟨u, hu⟩ := l.exists_mem_language
      obtain ⟨v, hv, hc⟩ := ihr h
      exact ⟨u ++ v, Language.append_mem_mul hu hv, List.mem_append_right _ hc⟩
  | alt l r ihl ihr =>
    rcases List.mem_append.1 h with h | h
    · obtain ⟨w, hw, hc⟩ := ihl h
      exact ⟨w, (Language.mem_add _ _ _).2 (.inl hw), hc⟩
    · obtain ⟨w, hw, hc⟩ := ihr h
      exact ⟨w, (Language.mem_add _ _ _).2 (.inr hw), hc⟩

end Expr

/-- No literal is blank that is spelled by what is left of a text without its blank characters. -/
theorem Spells.not_blank {cs : List Char} {ts : List Token}
    (h : Spells (cs.filter fun c => !Text.isBlank c) ts) (hc : .literal c ∈ ts) :
    Text.isBlank c = false := by
  have hkept := (List.mem_filter.1 (h.mem_of_literal hc)).2
  rwa [Bool.not_eq_true'] at hkept

/-- **What a text compiles to knows no blank character.** -/
theorem not_blank_of_mem_alphabet {text : String} {t : Tree} (h : compile text = .ok t)
    (hc : c ∈ t.alphabet) : Text.isBlank c = false := by
  obtain ⟨p, hp⟩ := exists_readsText h
  rw [Tree.alphabet, OrdSet.mem_ofList, OrdMap.values, List.mem_map] at hc
  obtain ⟨⟨position, c⟩, hmem, rfl⟩ := hc
  have hsymbol := OrdMap.mem_of_get?_ofList (OrdMap.mem_toList_iff.1 hmem)
  have hoccurs := Expr.occurs_of_mem_symbols hsymbol
  rw [(compile_reads h hp).2] at hoccurs
  obtain ⟨ts, hspells, hreads⟩ := hp
  exact hreads.not_blank (fun d hd => hspells.not_blank hd) hoccurs

end Frontend.Regex
