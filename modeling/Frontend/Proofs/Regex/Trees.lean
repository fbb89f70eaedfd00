import Frontend.Proofs.Lists
import Frontend.Proofs.Regex.Patterns
import Frontend.Proofs.Regex.PositionAutomaton

/-!
# Expressions and the patterns they stand for

An expression is a pattern that is made of operands, stars, concatenations and alternatives
alone, with a position at each symbol (`Expr.pattern`). Reading the postorder of an expression
gives the expression back if its positions are counted from 1 (`ofPostfix_postorder`), and
every pattern of this kind has such an expression (`exists_expr`). Whatever else is read as one
expression has its positions counted from 1 as well (`numbered_of_ofPostfix`).
-/

namespace Frontend.Regex

namespace Expr

/-- The pattern that an expression stands for. -/
def pattern : Expr → Pattern
  | symbol _ c => .char c
  | epsilon | marker _ => .epsilon
  | star e => .star e.pattern
  | concat l r => .concat l.pattern r.pattern
  | alt l r => .alt l.pattern r.pattern

theorem language_pattern (e : Expr) : e.pattern.language = e.language := by
  induction e with
  | symbol p c => rfl
  | epsilon => rfl
  | marker p => rfl
  | star e ih => rw [pattern, Pattern.language, ih, language]
  | concat l r ihl ihr => rw [pattern, Pattern.language, ihl, ihr, language]
  | alt l r ihl ihr => rw [pattern, Pattern.language, ihl, ihr, language]

/-- The positions of an expression are counted from `n`, and it is without the mark. -/
structure NumberedFrom (n : Nat) (e : Expr) : Prop where
  plain : e.Plain
  positions : e.positions = List.range' n e.positions.length

variable {e l r : Expr} {n : Nat}

theorem numberedFrom_concat :
    (concat l r).NumberedFrom n ↔
      l.NumberedFrom n ∧ r.NumberedFrom (n + l.positions.length) := by
  constructor
  · intro h
    obtain ⟨⟨hl, hr⟩, hpositions⟩ := h
    obtain ⟨hl', hr'⟩ := List.range'_parts hpositions
    exact ⟨⟨hl, hl'⟩, ⟨hr, hr'⟩⟩
  · intro h
    obtain ⟨⟨hl, hl'⟩, ⟨hr, hr'⟩⟩ := h
    refine ⟨⟨hl, hr⟩, ?_⟩
    rw [positions, List.length_append, ← List.range'_append_1, ← hl', ← hr']

/-- The positions do not tell alternatives from concatenations. -/
theorem numberedFrom_alt : (alt l r).NumberedFrom n ↔ (concat l r).NumberedFrom n :=
  ⟨fun ⟨hplain, hpositions⟩ => ⟨hplain, hpositions⟩,
    fun ⟨hplain, hpositions⟩ => ⟨hplain, hpositions⟩⟩

/-- Reading a postorder puts the expression on the stack. -/
theorem build_postorder {stack : List Expr} {rest : List Token} (he : e.NumberedFrom n) :
    Tree.build stack n (e.postorder ++ rest) =
      Tree.build (e :: stack) (n + e.positions.length) rest := by
  induction e generalizing stack n rest with
  | symbol p c =>
    obtain rfl : p = n := List.head_eq_of_cons_eq he.positions
    rfl
  | epsilon => rfl
  | marker p => exact he.plain.elim
  | star e ih =>
    rw [postorder, List.append_assoc, ih ⟨he.plain, he.positions⟩]
    rfl
  | concat l r ihl ihr =>
    obtain ⟨hl, hr⟩ := numberedFrom_concat.1 he
    rw [postorder, List.append_assoc, List.append_assoc, ihl hl, ihr hr, positions,
      List.length_append, Nat.add_assoc]
    rfl
  | alt l r ihl ihr =>
    obtain ⟨hl, hr⟩ := numberedFrom_concat.1 (numberedFrom_alt.1 he)
    rw [postorder, List.append_assoc, List.append_assoc, ihl hl, ihr hr, positions,
      List.length_append, Nat.add_assoc]
    rfl

/-- **Reading a postorder gives the expression back.** -/
theorem ofPostfix_postorder (he : e.NumberedFrom 1) :
    Tree.ofPostfix e.postorder = .ok ⟨e, 1 + e.positions.length⟩ := by
  have h : Tree.build [] 1 (e.postorder ++ []) = _ := build_postorder he
  rw [List.append_nil] at h
  rw [Tree.ofPostfix, h]
  rfl

theorem NumberedFrom.numbered (he : e.NumberedFrom 1) :
    Tree.Numbered ⟨e, 1 + e.positions.length⟩ := by
  refine ⟨he.plain, ?_⟩
  show e.positions ++ [1 + e.positions.length] = List.range' 1 (1 + e.positions.length)
  rw [Nat.add_comm 1, List.range'_1_concat, ← he.positions, Nat.add_comm 1]

/-- A pattern of the core has an expression whose positions are counted from `n`. -/
theorem exists_expr {p : Pattern} (hp : p.IsCore) (n : Nat) :
    ∃ e : Expr, e.pattern = p ∧ e.NumberedFrom n := by
  induction p generalizing n with
  | char c => exact ⟨symbol n c, rfl, trivial, rfl⟩
  | epsilon => exact ⟨epsilon, rfl, trivial, rfl⟩
  | charClass inner => exact hp.elim
  | star p ih =>
    obtain ⟨e, rfl, hplain, hpositions⟩ := ih hp n
    exact ⟨star e, rfl, hplain, hpositions⟩
  | plus p _ => exact hp.elim
  | optional p _ => exact hp.elim
  | concat p q ihp ihq =>
    obtain ⟨l, rfl, hl⟩ := ihp hp.1 n
    obtain ⟨r, rfl, hr⟩ := ihq hp.2 (n + l.positions.length)
    exact ⟨concat l r, rfl, numberedFrom_concat.2 ⟨hl, hr⟩⟩
  | alt p q ihp ihq =>
    obtain ⟨l, rfl, hl⟩ := ihp hp.1 n
    obtain ⟨r, rfl, hr⟩ := ihq hp.2 (n + l.positions.length)
    exact ⟨alt l r, rfl, numberedFrom_alt.2 (numberedFrom_concat.2 ⟨hl, hr⟩)⟩

end Expr

namespace Tree

variable {stack : List Expr} {next : Nat} {ts : List Token} {t : Tree}

/-- The expressions of a stack, the latest first, count the positions from 1 through to the one
before `next`. -/
inductive Stacked : List Expr → Nat → Prop
  | nil : Stacked [] 1
  | push {stack : List Expr} {n : Nat} {e : Expr} (h : Stacked stack n) (he : e.NumberedFrom n) :
    Stacked (e :: stack) (n + e.positions.length)

/-- Reading a token counts on. -/
theorem Stacked.build {stack' : List Expr} {next' : Nat} (h : Stacked stack next)
    (hbuild : Tree.build stack next ts = some (stack', next')) : Stacked stack' next' := by
  fun_induction Tree.build stack next ts with
  | case1 =>
    obtain ⟨rfl, rfl⟩ := Prod.mk.inj (Option.some.inj hbuild)
    exact h
  | case2 stack next c rest ih => exact ih (.push (e := .symbol next c) h ⟨trivial, rfl⟩) hbuild
  | case3 stack next rest ih => exact ih (.push (e := .epsilon) h ⟨trivial, rfl⟩) hbuild
  | case4 next rest e stack ih =>
    cases h with
    | push h he => exact ih (.push (e := .star e) h ⟨he.plain, he.positions⟩) hbuild
  | case5 => cases hbuild
  | case6 next rest r l stack ih =>
    rcases h with _ | ⟨h | ⟨h, hl⟩, hr⟩
    have hconcat := Stacked.push h (Expr.numberedFrom_concat.2 ⟨hl, hr⟩)
    rw [Expr.positions, List.length_append, ← Nat.add_assoc] at hconcat
    exact ih hconcat hbuild
  | case7 => cases hbuild
  | case8 next rest r l stack ih =>
    rcases h with _ | ⟨h | ⟨h, hl⟩, hr⟩
    have halt := Stacked.push h (Expr.numberedFrom_alt.2 (Expr.numberedFrom_concat.2 ⟨hl, hr⟩))
    rw [Expr.positions, List.length_append, ← Nat.add_assoc] at halt
    exact ih halt hbuild
  | case9 => cases hbuild
  | case10 => cases hbuild

/-- **What is read as one expression has its positions counted from 1.** -/
theorem numbered_of_ofPostfix (h : ofPostfix ts = .ok t) : t.Numbered := by
  unfold ofPostfix at h
  split at h
  · next e next hbuild =>
    cases h
    rcases Stacked.nil.build hbuild with _ | ⟨h | _, he⟩
    exact he.numbered
  · cases h

end Tree

end Frontend.Regex
