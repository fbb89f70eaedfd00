import Frontend.Proofs.Regex.ShuntingYard
import Frontend.Proofs.Text.Lines

/-!
# Written expressions are read as expressions

An expression that is written with its operators between and behind their operands comes out in
postfix form (`toPostfix_of_expresses`), and the postfix form is read as the expression. Its
symbols keep their order on the way, so the literals that are written are numbered from the left
(`Expr.symbols_eq_numberFrom`). `toPostfix_spec` puts this together for every expression and every
way to write it.
-/

namespace Frontend.Regex

variable {lvl : Level} {ts us : List Token} {p : Pattern} {e : Expr}

/-! ## What is written -/

/-- Only operands, stars, concatenations and alternatives are written. -/
theorem Expresses.isCore (h : Expresses lvl ts p) : p.IsCore := by
  induction h with
  | char | epsilon => trivial
  | group _ ih | ofAtom _ ih | star _ ih | ofSuffixed _ ih | ofConcat _ ih => exact ih
  | concat _ _ ih ih' | alt _ _ ih ih' => exact ⟨ih, ih'⟩

theorem Expresses.ofAtom_concat (h : Expresses .atom ts p) : Expresses .concat ts p :=
  .ofSuffixed (.ofAtom h)

/-- Every such expression can be written, for instance with parentheses around all its parts. -/
theorem exists_expresses (hp : p.IsCore) : ∃ ts, Expresses .atom ts p := by
  induction p with
  | char c => exact ⟨_, .char c⟩
  | epsilon => exact ⟨_, .epsilon⟩
  | charClass | plus | optional => exact hp.elim
  | star p ih =>
    obtain ⟨ts, h⟩ := ih hp
    exact ⟨_, .group (.ofConcat (.ofSuffixed (.star (.ofAtom h))))⟩
  | concat p q ihp ihq =>
    obtain ⟨ts, h⟩ := ihp hp.1
    obtain ⟨us, h'⟩ := ihq hp.2
    exact ⟨_, .group (.ofConcat (.concat h.ofAtom_concat (.ofAtom h')))⟩
  | alt p q ihp ihq =>
    obtain ⟨ts, h⟩ := ihp hp.1
    obtain ⟨us, h'⟩ := ihq hp.2
    exact ⟨_, .group (.alt (.ofConcat h.ofAtom_concat) h'.ofAtom_concat)⟩

/-! ## The literals from left to right -/

/-- The characters of the literals among tokens. -/
def literals (ts : List Token) : List Char :=
  ts.filterMap fun
    | .literal c => some c
    | .op _ => none

theorem literals_append (ts us : List Token) : literals (ts ++ us) = literals ts ++ literals us :=
  List.filterMap_append

theorem literals_op (o : Op) (ts : List Token) : literals (.op o :: ts) = literals ts := rfl

/-- Moving operators behind their operands does not change the order of the literals. -/
theorem Expresses.literals_postorder (h : Expresses lvl ts p) :
    literals p.postorder = literals ts := by
  induction h with
  | char | epsilon => rfl
  | group _ ih =>
    rw [List.cons_append, literals_op, literals_append, ih]
    exact (List.append_nil _).symm
  | ofAtom _ ih | ofSuffixed _ ih | ofConcat _ ih => exact ih
  | star _ ih => rw [Pattern.postorder, literals_append, literals_append, ih]
  | concat _ _ ih ih' =>
    rw [Pattern.postorder, literals_append, literals_append, literals_append, ih, ih']
    exact List.append_nil _
  | alt _ _ ih ih' =>
    rw [Pattern.postorder, literals_append, literals_append, literals_append, literals_op, ih, ih']
    exact List.append_nil _

namespace Expr

/-- The literals of a postorder are the symbols of the expression. -/
theorem literals_postorder (e : Expr) : literals e.postorder = e.symbols.map Prod.snd := by
  induction e with
  | symbol | epsilon | marker => rfl
  | star e ih =>
    rw [postorder, literals_append, ih, symbols]
    exact List.append_nil _
  | concat l r ihl ihr | alt l r ihl ihr =>
    rw [postorder, literals_append, literals_append, ihl, ihr, symbols, List.map_append]
    exact List.append_nil _

/-- **The symbols are numbered from left to right.** -/
theorem symbols_eq_numberFrom {n : Nat} (he : e.NumberedFrom n) :
    e.symbols = Text.numberFrom n (literals e.postorder) := by
  rw [literals_postorder]
  refine Text.eq_numberFrom ?_
  rw [← List.length_map (f := Prod.fst), map_fst_symbols he.plain]
  exact he.positions

end Expr

/-! ## From tokens to trees -/

/-- **An expression is read from whatever writes it**: the operators are moved behind their operands
into its postorder, and this is read as the expression again, its literals numbered from 1 in the
order in which they are written, with the number after the last for the mark. The expressions that
can be written are those of operands, stars, concatenations and alternatives. -/
theorem toPostfix_spec (p : Pattern) :
    ((∃ ts, Expresses .alt ts p) ↔ p.IsCore) ∧
      ∀ ts, Expresses .alt ts p →
        toPostfix (insertConcat ts) = p.postorder ∧
        ∃ t, Tree.ofPostfix (toPostfix (insertConcat ts)) = .ok t ∧
          t.body.Plain ∧ t.body.pattern = p ∧
          t.body.symbols = Text.numberFrom 1 (literals ts) ∧
          t.markerPosition = (literals ts).length + 1 := by
  refine ⟨⟨fun ⟨ts, h⟩ => h.isCore, fun hp => ?_⟩, fun ts h => ?_⟩
  · obtain ⟨ts, h⟩ := exists_expresses hp
    exact ⟨ts, .ofConcat h.ofAtom_concat⟩
  · obtain ⟨e, rfl, he⟩ := Expr.exists_expr h.isCore 1
    have hpostorder := Expr.postorder_pattern he.plain
    have hliterals : literals e.postorder = literals ts := hpostorder ▸ h.literals_postorder
    have hlength : e.positions.length = (literals ts).length := by
      rw [← hliterals, Expr.literals_postorder, List.length_map, ← Expr.map_fst_symbols he.plain,
        List.length_map]
    refine ⟨toPostfix_of_expresses h, ⟨e, 1 + e.positions.length⟩, ?_, he.plain, rfl, ?_, ?_⟩
    · rw [toPostfix_of_expresses h, hpostorder, Expr.ofPostfix_postorder he]
    · rw [Expr.symbols_eq_numberFrom he, hliterals]
    · rw [hlength, Nat.add_comm]

/-- Two stars in a row, alternatives in a concatenation, and a concatenation that groups to the
right. -/
def starred : Pattern :=
  .alt (.char 'a')
    (.concat (.star (.star (.char 'b')))
      (.concat (.alt (.char 'c') .epsilon) (.concat (.char 'd') .epsilon)))

/-- The parentheses around the alternatives and around what groups to the right are needed. -/
theorem toPostfix_spec_starred :
    ∃ ts t, tokenize "a|b**((c|&)(d&))" = .ok ts ∧ Expresses .alt ts starred ∧
      render (toPostfix (insertConcat ts)) = "ab**c&|d&...|" ∧
      Tree.ofPostfix (toPostfix (insertConcat ts)) = .ok t ∧ t.body.pattern = starred ∧
      t.body.symbols = [(1, 'a'), (2, 'b'), (3, 'c'), (4, 'd')] ∧ t.markerPosition = 5 := by
  obtain ⟨ts, hts⟩ : ∃ ts, tokenize "a|b**((c|&)(d&))" = .ok ts := ⟨_, rfl⟩
  have hexpresses : Expresses .alt ts starred := by
    obtain rfl := Except.ok.inj hts
    have hletter := fun c => Expresses.ofAtom (.char c)
    have hempty := Expresses.ofAtom .epsilon
    have halternatives := Expresses.alt (.ofConcat (.ofSuffixed (hletter 'c'))) (.ofSuffixed hempty)
    have hright := Expresses.concat (.ofSuffixed (.ofAtom (.group halternatives)))
      (.ofAtom (.group (.ofConcat (.concat (.ofSuffixed (hletter 'd')) hempty))))
    exact .alt (.ofConcat (.ofSuffixed (hletter 'a')))
      (.concat (.ofSuffixed (.star (.star (hletter 'b')))) (.ofAtom (.group (.ofConcat hright))))
  obtain ⟨-, hspec⟩ := toPostfix_spec starred
  obtain ⟨hwritten, t, ht, -, hpattern, hsymbols, hmarker⟩ := hspec ts hexpresses
  have hliterals : literals ts = ['a', 'b', 'c', 'd'] := by
    obtain rfl := Except.ok.inj hts
    rfl
  rw [hliterals] at hsymbols hmarker
  refine ⟨ts, t, hts, hexpresses, ?_, ht, hpattern, hsymbols, hmarker⟩
  rw [hwritten]
  decide

end Frontend.Regex
