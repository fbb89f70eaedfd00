import Frontend.Regex.CharClass
import Frontend.Text.Blank
import Mathlib.Computability.Language

/-!
# What a pattern denotes

The grammar of patterns and their meaning, apart from how they are compiled. `Spells` says
which tokens a text stands for. `Reads` groups tokens: alternatives of concatenations of
expressions with at most one postfix operator each, where an expression is a literal, the
empty word, a group or a class. `Pattern.language` is the language of what was read.
-/

namespace Frontend.Regex

open scoped Computability

/-! ## Patterns -/

/-- A pattern as it is grouped. -/
inductive Pattern where
  | char (c : Char)
  | epsilon
  /-- A class, by what stands between its brackets. -/
  | charClass (inner : List Token)
  | star (p : Pattern)
  | plus (p : Pattern)
  | optional (p : Pattern)
  | concat (p q : Pattern)
  | alt (p q : Pattern)
  deriving DecidableEq, Repr

/-- The words of a class: its literals, the characters of its ranges, and the empty word if
that is listed. -/
inductive ClassWord (inner : List Token) : List Char → Prop
  | literal {c : Char} (h : .literal c ∈ inner) : ClassWord inner [c]
  | range {lo hi c : Char} (h : [.literal lo, .op .dash, .literal hi] <:+: inner)
    (hlo : lo ≤ c) (hhi : c ≤ hi) : ClassWord inner [c]
  | epsilon (h : .op .epsilon ∈ inner) : ClassWord inner []

/-- The language that a pattern denotes. -/
def Pattern.language : Pattern → Language Char
  | char c => {[c]}
  | epsilon => 1
  | charClass inner => {w | ClassWord inner w}
  | star p => p.language∗
  | plus p => p.language * p.language∗
  | optional p => p.language + 1
  | concat p q => p.language * q.language
  | alt p q => p.language + q.language

/-- The pattern is made of operands, stars, concatenations and alternatives alone. -/
def Pattern.IsCore : Pattern → Prop
  | char _ | epsilon => True
  | charClass _ | plus _ | optional _ => False
  | star p => p.IsCore
  | concat p q | alt p q => p.IsCore ∧ q.IsCore

/-! ## Reading tokens -/

/-- What a class may hold: literals, the empty word and dashes, each dash between two
literals of one kind in order. -/
structure IsClassBody (inner : List Token) : Prop where
  nonempty : inner ≠ []
  members : ∀ t ∈ inner, (∃ c, t = .literal c) ∨ t = .op .epsilon ∨ t = .op .dash
  ranges : ∀ front rest, inner = front ++ .op .dash :: rest →
    ∃ lo hi, front.getLast? = some (.literal lo) ∧ rest.head? = some (.literal hi) ∧
      sameKind lo hi = true ∧ lo ≤ hi

/-- How tightly the parts of a pattern are bound. -/
inductive Level where
  | alt
  | concat
  | suffixed
  | atom
  deriving DecidableEq, Repr

/-- The tokens are read as the pattern. Postfix operators bind tighter than concatenation and
this tighter than alternatives; both group to the left. -/
inductive Reads : Level → List Token → Pattern → Prop
  | char (c : Char) : Reads .atom [.literal c] (.char c)
  | epsilon : Reads .atom [.op .epsilon] .epsilon
  | group {ts : List Token} {p : Pattern} (h : Reads .alt ts p) :
    Reads .atom (.op .openParen :: ts ++ [.op .closeParen]) p
  | charClass {inner : List Token} (h : IsClassBody inner) :
    Reads .atom (.op .openBracket :: inner ++ [.op .closeBracket]) (.charClass inner)
  | ofAtom {ts : List Token} {p : Pattern} (h : Reads .atom ts p) : Reads .suffixed ts p
  | star {ts : List Token} {p : Pattern} (h : Reads .atom ts p) :
    Reads .suffixed (ts ++ [.op .star]) (.star p)
  | plus {ts : List Token} {p : Pattern} (h : Reads .atom ts p) :
    Reads .suffixed (ts ++ [.op .plus]) (.plus p)
  | optional {ts : List Token} {p : Pattern} (h : Reads .atom ts p) :
    Reads .suffixed (ts ++ [.op .question]) (.optional p)
  | ofSuffixed {ts : List Token} {p : Pattern} (h : Reads .suffixed ts p) : Reads .concat ts p
  | concat {ts us : List Token} {p q : Pattern} (h : Reads .concat ts p)
    (h' : Reads .suffixed us q) : Reads .concat (ts ++ us) (.concat p q)
  | ofConcat {ts : List Token} {p : Pattern} (h : Reads .concat ts p) : Reads .alt ts p
  | alt {ts us : List Token} {p q : Pattern} (h : Reads .alt ts p) (h' : Reads .concat us q) :
    Reads .alt (ts ++ .op .alt :: us) (.alt p q)

/-- The tokens that a text without blank characters stands for. -/
inductive Spells : List Char → List Token → Prop
  | nil : Spells [] []
  | escape (c : Char) {cs : List Char} {ts : List Token} (h : Spells cs ts) :
    Spells ('\\' :: c :: cs) (.literal c :: ts)
  | dot {cs : List Char} {ts : List Token} (h : Spells cs ts) : Spells ('.' :: cs) ts
  | char {c : Char} {cs : List Char} {ts : List Token} (hescape : c ≠ '\\') (hdot : c ≠ '.')
    (h : Spells cs ts) : Spells (c :: cs) (.ofChar c :: ts)

/-- A text, blank characters aside, is read as a pattern. -/
def ReadsText (text : String) (p : Pattern) : Prop :=
  ∃ ts, Spells (text.toList.filter fun c => !Text.isBlank c) ts ∧ Reads .alt ts p

/-! ## First facts about readings -/

variable {lvl : Level} {ts : List Token} {p : Pattern}

theorem Reads.ne_nil (h : Reads lvl ts p) : ts ≠ [] := by
  induction h with
  | char | epsilon | group | charClass => exact List.cons_ne_nil _ _
  | ofAtom _ ih | ofSuffixed _ ih | ofConcat _ ih => exact ih
  | star | plus | optional => simp
  | concat _ _ ih => exact List.append_ne_nil_of_left_ne_nil ih _
  | alt => simp

/-- A group, class or operand binds as tightly as can be, so it can stand for anything. -/
theorem Reads.ofAtom_alt (h : Reads .atom ts p) : Reads .alt ts p :=
  .ofConcat (.ofSuffixed (.ofAtom h))

/-- Splitting a text gives the tokens that it stands for. -/
theorem split?_eq_some_iff {cs : List Char} : split? cs = some ts ↔ Spells cs ts := by
  constructor
  · intro h
    fun_induction split? cs generalizing ts with
    | case1 =>
      obtain rfl := Option.some.inj h
      exact .nil
    | case2 => cases h
    | case3 c rest ih =>
      obtain ⟨us, hus, rfl⟩ := Option.map_eq_some_iff.1 h
      exact .escape c (ih hus)
    | case4 rest ih => exact .dot (ih h)
    | case5 c rest hlast hescape hdot ih =>
      obtain ⟨us, hus, rfl⟩ := Option.map_eq_some_iff.1 h
      refine .char (fun hc => ?_) (fun hc => hdot hc) (ih hus)
      cases rest with
      | nil => exact hlast hc rfl
      | cons d rest => exact hescape d rest hc rfl
  · intro h
    induction h with
    | nil => rfl
    | escape c _ ih => rw [split?, ih, Option.map_some]
    | dot _ ih => rw [split?, ih]
    | char hescape hdot _ ih =>
      rw [split?, ih, Option.map_some]
      · exact fun h _ => hescape h
      · exact fun _ _ h _ => hescape h
      · exact hdot

/-- A text stands for one list of tokens. -/
theorem Spells.unique {cs : List Char} {us : List Token} (h : Spells cs ts) (h' : Spells cs us) :
    ts = us :=
  Option.some.inj ((split?_eq_some_iff.2 h).symm.trans (split?_eq_some_iff.2 h'))

end Frontend.Regex
