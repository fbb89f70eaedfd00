import Frontend.Text.Blank
import Mathlib.Logic.Basic
import Std.Data.String.ToNat

/-!
# Letters, digits and numbers

Letters and digits are not blank, and the decimal form of a number is made of digits.
-/

namespace Frontend.Text

variable {n : Nat} {c : Char}

/-- Characters that a test tells apart are different. -/
theorem ne_of_test {p : Char → Bool} {c d : Char} (hc : p c = true) (hd : p d = false) :
    c ≠ d := by
  rintro rfl
  exact Bool.false_ne_true (hd.symm.trans hc)

/-- The ASCII characters after the space are not blank. -/
theorem isBlank_eq_false_of_lt (h : 0x20 < c.toNat) (h' : c.toNat < 0x80) : isBlank c = false := by
  simp only [isBlank, Bool.or_eq_false_iff, Bool.and_eq_false_iff, decide_eq_false_iff_not,
    beq_eq_false_iff_ne]
  omega

theorem toNat_ofNat_of_lt (h : n < 0x80) : (Char.ofNat n).toNat = n := by
  have hvalid : n.isValidChar := .inl (Nat.lt_trans h (by decide))
  rw [Char.ofNat, dif_pos hvalid]
  rfl

/-- Letters and digits are ASCII characters after the space. -/
theorem toNat_of_isAlphanum (h : c.isAlphanum = true) : 0x20 < c.toNat ∧ c.toNat < 0x80 := by
  have hbounds : ∀ {lo hi : UInt32}, 0x20 < lo.toNat → hi.toNat < 0x80 → lo ≤ c.val ∧ c.val ≤ hi →
      0x20 < c.toNat ∧ c.toNat < 0x80 := fun hlo hhi h =>
    ⟨Nat.lt_of_lt_of_le hlo (UInt32.le_iff_toNat_le.1 h.1),
      Nat.lt_of_le_of_lt (UInt32.le_iff_toNat_le.1 h.2) hhi⟩
  rcases Bool.or_eq_true_iff.1 h with h | h
  · rcases Bool.or_eq_true_iff.1 h with h | h
    · exact hbounds (by decide) (by decide) (of_decide_eq_true h)
    · obtain ⟨hlo, hhi⟩ := Bool.and_eq_true_iff.1 h
      exact hbounds (by decide) (by decide) ⟨of_decide_eq_true hlo, of_decide_eq_true hhi⟩
  · obtain ⟨hlo, hhi⟩ := Bool.and_eq_true_iff.1 h
    exact hbounds (by decide) (by decide) ⟨of_decide_eq_true hlo, of_decide_eq_true hhi⟩

theorem isBlank_of_isAlphanum (h : c.isAlphanum = true) : isBlank c = false :=
  isBlank_eq_false_of_lt (toNat_of_isAlphanum h).1 (toNat_of_isAlphanum h).2

/-! ## Decimal numbers -/

theorem isDigit_of_mem_toString (h : c ∈ (toString n).toList) : c.isDigit = true :=
  Nat.isDigit_of_mem_toDigits (by decide) (by decide) (Nat.toList_repr (n := n) ▸ h)

theorem toList_toString_ne_nil : (toString n).toList ≠ [] :=
  Nat.toList_repr (n := n) ▸ Nat.toDigits_ne_nil

theorem digits_toString :
    (!(toString n).toList.isEmpty && (toString n).toList.all Char.isDigit) = true := by
  rw [Bool.and_eq_true, Bool.not_eq_true', List.isEmpty_eq_false_iff]
  exact ⟨toList_toString_ne_nil, List.all_eq_true.2 fun c hc => isDigit_of_mem_toString hc⟩

theorem isBlank_of_isDigit (h : c.isDigit = true) : isBlank c = false :=
  isBlank_of_isAlphanum (Bool.or_eq_true_iff.2 (.inr h))

theorem not_mem_toString (hc : isBlank c = true) :
    c ∉ (toString n).toList :=
  fun hmem => Bool.false_ne_true ((isBlank_of_isDigit (isDigit_of_mem_toString hmem)).symm.trans hc)

end Frontend.Text
