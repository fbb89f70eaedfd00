import Frontend.Grammar.Basic
import Mathlib.Logic.Relation

/-!
# Derivations

`Grammar.Derives` rewrites nonterminals anywhere in a string of symbols, and
`Grammar.Rightmost ps` rewrites the last nonterminal of the string, by the productions `ps`
in this order. `Grammar.IsSentence` is membership in the language of the grammar.

Between the two stands `Grammar.Yields`, which reads a derivation from left to right as a
parser does: symbol by symbol, each nonterminal with the derivation of its body. It says the
same: a word of terminals that is derived is yielded (`exists_yields_of_derives`), and what
is yielded by the productions `ps` is what the rightmost derivation by `ps` gives
(`Rightmost.yields`, `Yields.rightmost`).
-/

namespace Frontend.Grammar

open Relation (ReflTransGen)

variable {g : Grammar}

/-! ## Symbols -/

/-- Every symbol of a list is no nonterminal. -/
def NoNonterminals (g : Grammar) (ss : List String) : Prop :=
  ∀ s ∈ ss, g.isNonterminal s = false

instance (g : Grammar) (ss : List String) : Decidable (g.NoNonterminals ss) :=
  inferInstanceAs (Decidable (∀ s ∈ ss, g.isNonterminal s = false))

theorem noNonterminals_append {ss ts : List String} :
    g.NoNonterminals (ss ++ ts) ↔ g.NoNonterminals ss ∧ g.NoNonterminals ts :=
  List.forall_mem_append

theorem noNonterminals_cons {s : String} {ss : List String} :
    g.NoNonterminals (s :: ss) ↔ g.isNonterminal s = false ∧ g.NoNonterminals ss :=
  List.forall_mem_cons

theorem isNonterminal_iff {s : String} : g.isNonterminal s = true ↔ s ∈ g.nonterminals := by
  rw [isNonterminal, List.contains_iff_mem]

theorem mem_terminals_iff {s : String} : s ∈ g.terminals ↔ g.isTerminal s = true :=
  decide_eq_true_iff.symm

theorem isTerminal_iff {s : String} :
    g.isTerminal s = true ↔
      (∃ p ∈ g.productions, s ∈ p.body) ∧ g.isNonterminal s = false := by
  rw [isTerminal, decide_eq_true_iff, terminals, OrdSet.mem_ofList, List.mem_filter,
    List.mem_flatMap, Bool.not_eq_true']

theorem isNonterminal_of_isTerminal {s : String} (h : g.isTerminal s = true) :
    g.isNonterminal s = false :=
  (isTerminal_iff.1 h).2

/-- The head of a production is a nonterminal. -/
theorem isNonterminal_head {p : Production} (hp : p ∈ g.productions) :
    g.isNonterminal p.head = true := by
  rw [productions, List.mem_flatMap] at hp
  obtain ⟨⟨head, bodies⟩, hmem, hp⟩ := hp
  obtain ⟨body, -, rfl⟩ := List.mem_map.1 hp
  exact isNonterminal_iff.2 (List.mem_map.2 ⟨(head, bodies), hmem, rfl⟩)

/-- A symbol of a body is a nonterminal or a terminal. -/
theorem isTerminal_of_mem_body {p : Production} {s : String} (hp : p ∈ g.productions)
    (hs : s ∈ p.body) (hn : g.isNonterminal s = false) : g.isTerminal s = true :=
  isTerminal_iff.2 ⟨⟨p, hp, hs⟩, hn⟩

/-- Only what stands in a body is a terminal. -/
theorem not_isTerminal_of_not_mem {s : String} (h : ∀ p ∈ g.productions, s ∉ p.body) :
    ¬ g.isTerminal s = true := by
  intro ht
  obtain ⟨⟨p, hp, hmem⟩, -⟩ := isTerminal_iff.1 ht
  exact h p hp hmem

/-! ## Derivations in any order -/

/-- One step of a derivation replaces a nonterminal by one of its bodies. -/
inductive Step (g : Grammar) : List String → List String → Prop
  | replace (before after : List String) {p : Production} (hp : p ∈ g.productions) :
    Step g (before ++ p.head :: after) (before ++ p.body ++ after)

/-- A string of symbols derives another. -/
def Derives (g : Grammar) : List String → List String → Prop := ReflTransGen g.Step

/-- The words of terminals that the start symbol derives. -/
def IsSentence (g : Grammar) (word : List String) : Prop :=
  (∀ s ∈ word, g.isTerminal s = true) ∧ g.Derives [g.start] word

theorem noNonterminals_of_isTerminal {word : List String}
    (h : ∀ s ∈ word, g.isTerminal s = true) : g.NoNonterminals word :=
  fun s hs => isNonterminal_of_isTerminal (h s hs)

/-- Derivations bring in symbols of bodies only. -/
theorem Derives.isTerminal {ss ts : List String} (h : g.Derives ss ts)
    (hss : ∀ s ∈ ss, g.isNonterminal s = false → g.isTerminal s = true) :
    ∀ t ∈ ts, g.isNonterminal t = false → g.isTerminal t = true := by
  induction h with
  | refl => exact hss
  | tail _ hstep ih =>
    obtain ⟨before, after, hp⟩ := hstep
    intro t ht hn
    rw [List.mem_append, List.mem_append] at ht
    rcases ht with (ht | ht) | ht
    · exact ih t (by simp [ht]) hn
    · exact isTerminal_of_mem_body hp ht hn
    · exact ih t (by simp [ht]) hn

section Context

variable {ss ts : List String}

/-- A derivation goes on in the same way behind symbols that stay as they are. -/
theorem Derives.append_left (front : List String) (h : g.Derives ss ts) :
    g.Derives (front ++ ss) (front ++ ts) := by
  induction h with
  | refl => exact .refl
  | tail _ hstep ih =>
    obtain ⟨before, after, hp⟩ := hstep
    have hstep := Step.replace (front ++ before) after hp
    simp only [List.append_assoc] at hstep ih ⊢
    exact ih.tail hstep

/-- A derivation goes on in the same way before symbols that stay as they are. -/
theorem Derives.append_right (rest : List String) (h : g.Derives ss ts) :
    g.Derives (ss ++ rest) (ts ++ rest) := by
  induction h with
  | refl => exact .refl
  | tail _ hstep ih =>
    obtain ⟨before, after, hp⟩ := hstep
    have hstep := Step.replace before (after ++ rest) hp
    simp only [List.append_assoc, List.cons_append] at hstep ih ⊢
    exact ih.tail hstep

/-- A head derives each of its bodies. -/
theorem derives_body {p : Production} (hp : p ∈ g.productions) : g.Derives [p.head] p.body := by
  have hstep := Step.replace [] [] hp
  rw [List.nil_append, List.nil_append, List.append_nil] at hstep
  exact .single hstep

end Context

/-! ## Rightmost derivations -/

/-- A derivation by the productions `ps`, in this order, each of which rewrites the last
nonterminal of the string. -/
inductive Rightmost (g : Grammar) : List Production → List String → List String → Prop
  | refl (ss : List String) : Rightmost g [] ss ss
  | step {before after ts : List String} {p : Production} {ps : List Production}
    (hp : p ∈ g.productions) (hafter : g.NoNonterminals after)
    (rest : Rightmost g ps (before ++ p.body ++ after) ts) :
    Rightmost g (p :: ps) (before ++ p.head :: after) ts

namespace Rightmost

theorem derives {ps : List Production} {ss ts : List String} (h : g.Rightmost ps ss ts) :
    g.Derives ss ts := by
  induction h with
  | refl ss => exact .refl
  | step hp _ _ ih => exact .head (.replace _ _ hp) ih

theorem trans {ps qs : List Production} {ss ts us : List String} (h : g.Rightmost ps ss ts)
    (h' : g.Rightmost qs ts us) : g.Rightmost (ps ++ qs) ss us := by
  induction h with
  | refl ss => exact h'
  | step hp hafter _ ih => exact .step hp hafter (ih h')

/-- A rightmost derivation goes on in the same way before symbols that stay as they are. -/
theorem append_left {ps : List Production} {ss ts : List String} (pre : List String)
    (h : g.Rightmost ps ss ts) : g.Rightmost ps (pre ++ ss) (pre ++ ts) := by
  induction h with
  | refl ss => exact .refl _
  | step hp hafter _ ih =>
    rw [← List.append_assoc, ← List.append_assoc] at ih
    rw [← List.append_assoc]
    exact .step hp hafter ih

/-- A rightmost derivation goes on in the same way in front of terminals. -/
theorem append_right {ps : List Production} {ss ts post : List String}
    (h : g.Rightmost ps ss ts) (hpost : g.NoNonterminals post) :
    g.Rightmost ps (ss ++ post) (ts ++ post) := by
  induction h with
  | refl ss => exact .refl _
  | step hp hafter _ ih =>
    rw [List.append_assoc] at ih
    rw [List.append_assoc, List.cons_append]
    exact .step hp (noNonterminals_append.2 ⟨hafter, hpost⟩) ih

end Rightmost

/-! ## Derivations from left to right -/

/-- The symbols yield the word: a terminal yields itself, and a nonterminal what the body of
one of its productions yields. The list holds the productions in the order of the rightmost
derivation, so those of later symbols come first. -/
inductive Yields (g : Grammar) : List String → List String → List Production → Prop
  | nil : Yields g [] [] []
  | terminal {t : String} {ss word : List String} {ps : List Production}
    (ht : g.isNonterminal t = false) (rest : Yields g ss word ps) :
    Yields g (t :: ss) (t :: word) ps
  | nonterminal {p : Production} {ss u v : List String} {ps qs : List Production}
    (hp : p ∈ g.productions) (body : Yields g p.body u ps) (rest : Yields g ss v qs) :
    Yields g (p.head :: ss) (u ++ v) (qs ++ p :: ps)

namespace Yields

theorem noNonterminals {ss word : List String} {ps : List Production}
    (h : g.Yields ss word ps) : g.NoNonterminals word := by
  induction h with
  | nil => exact List.forall_mem_nil _
  | terminal ht _ ih => exact noNonterminals_cons.2 ⟨ht, ih⟩
  | nonterminal _ _ _ ihbody ihrest => exact noNonterminals_append.2 ⟨ihbody, ihrest⟩

/-- Terminals yield themselves. -/
theorem self {word : List String} (h : g.NoNonterminals word) : g.Yields word word [] := by
  induction word with
  | nil => exact .nil
  | cons t word ih =>
    obtain ⟨ht, hword⟩ := noNonterminals_cons.1 h
    exact .terminal ht (ih hword)

theorem append {ss ts u v : List String} {ps qs : List Production} (h : g.Yields ss u ps)
    (h' : g.Yields ts v qs) : g.Yields (ss ++ ts) (u ++ v) (qs ++ ps) := by
  induction h with
  | nil => simpa using h'
  | terminal ht _ ih => exact .terminal ht ih
  | nonterminal hp body _ _ ih =>
    have h := Yields.nonterminal hp body ih
    simpa only [List.append_assoc, List.cons_append] using h

/-- What two strings in a row yield is made up of what each of them yields. -/
theorem split {ss ts word : List String} {ps : List Production}
    (h : g.Yields (ss ++ ts) word ps) :
    ∃ u v qs rs, word = u ++ v ∧ ps = rs ++ qs ∧ g.Yields ss u qs ∧ g.Yields ts v rs := by
  generalize hcat : ss ++ ts = cat at h
  induction h generalizing ss with
  | nil =>
    obtain ⟨rfl, rfl⟩ := List.append_eq_nil_iff.1 hcat
    exact ⟨[], [], [], [], rfl, rfl, .nil, .nil⟩
  | @terminal t cat word ps ht rest ih =>
    -- The first symbol belongs to the first part, unless this is empty.
    cases ss with
    | nil =>
      obtain rfl : ts = t :: cat := hcat
      exact ⟨[], t :: word, [], ps, rfl, by simp, .nil, .terminal ht rest⟩
    | cons s ss =>
      obtain ⟨rfl, hss⟩ := List.cons.inj hcat
      obtain ⟨u, v, qs, rs, rfl, rfl, hu, hv⟩ := ih hss
      exact ⟨s :: u, v, qs, rs, rfl, rfl, .terminal ht hu, hv⟩
  | @nonterminal p cat u v ps qs hp body rest _ ih =>
    cases ss with
    | nil =>
      obtain rfl : ts = p.head :: cat := hcat
      exact ⟨[], u ++ v, [], qs ++ p :: ps, rfl, by simp, .nil, .nonterminal hp body rest⟩
    | cons s ss =>
      obtain ⟨rfl, hss⟩ := List.cons.inj hcat
      obtain ⟨u', v', qs', rs', rfl, rfl, hu, hv⟩ := ih hss
      exact ⟨u ++ u', v', qs' ++ p :: ps, rs', by simp, by simp, .nonterminal hp body hu, hv⟩

/-- Terminals yield nothing but themselves. -/
theorem eq_self {ss word : List String} {ps : List Production} (h : g.Yields ss word ps)
    (hss : g.NoNonterminals ss) : word = ss ∧ ps = [] := by
  induction h with
  | nil => exact ⟨rfl, rfl⟩
  | terminal _ _ ih =>
    obtain ⟨rfl, rfl⟩ := ih (noNonterminals_cons.1 hss).2
    exact ⟨rfl, rfl⟩
  | nonterminal hp _ _ _ _ =>
    have hhead := (noNonterminals_cons.1 hss).1
    rw [isNonterminal_head hp] at hhead
    cases hhead

/-- Undoes a step: a body in the middle of a string gives way to its head. Its production
comes right after those of the symbols behind it. -/
theorem replace {before after word : List String} {p : Production} {ps : List Production}
    (hp : p ∈ g.productions) (h : g.Yields (before ++ p.body ++ after) word ps) :
    ∃ qs rs, ps = rs ++ qs ∧ g.Yields (before ++ p.head :: after) word (rs ++ p :: qs) ∧
      (g.NoNonterminals after → rs = []) := by
  obtain ⟨w, v, qs, rs, rfl, rfl, hfront, hafter⟩ := h.split
  obtain ⟨t, u, qs, os, rfl, rfl, hbefore, hbody⟩ := hfront.split
  refine ⟨os ++ qs, rs, rfl, ?_, fun hn => (hafter.eq_self hn).2⟩
  have h := hbefore.append (.nonterminal hp hbody hafter)
  simpa only [List.append_assoc, List.cons_append] using h

theorem rightmost {ss word : List String} {ps : List Production} (h : g.Yields ss word ps) :
    g.Rightmost ps ss word := by
  induction h with
  | nil => exact .refl []
  | terminal _ _ ih => exact ih.append_left [_]
  | @nonterminal p ss u v ps qs hp _ rest ihbody ihrest =>
    have hrest := ihrest.append_left [p.head]
    have hbody : g.Rightmost ps ([] ++ p.body ++ v) (u ++ v) :=
      ihbody.append_right rest.noNonterminals
    exact hrest.trans (.step hp rest.noNonterminals hbody)

end Yields

/-- The rightmost derivation of a word of terminals is one from left to right, by the same
productions. -/
theorem Rightmost.yields {ss word : List String} {ps : List Production}
    (h : g.Rightmost ps ss word) (hword : g.NoNonterminals word) : g.Yields ss word ps := by
  induction h with
  | refl ss => exact .self hword
  | step hp hafter _ ih =>
    obtain ⟨qs, rs, rfl, h, hrs⟩ := (ih hword).replace hp
    rw [hrs hafter] at h ⊢
    exact h

/-- Whatever the order of a derivation of a word of terminals, there is one from left to
right. -/
theorem exists_yields_of_derives {ss word : List String} (h : g.Derives ss word)
    (hword : g.NoNonterminals word) : ∃ ps, g.Yields ss word ps := by
  induction h using ReflTransGen.head_induction_on with
  | refl => exact ⟨[], .self hword⟩
  | head hstep _ ih =>
    obtain ⟨before, after, hp⟩ := hstep
    obtain ⟨ps, h⟩ := ih
    obtain ⟨qs, rs, -, h, -⟩ := h.replace hp
    exact ⟨rs ++ _ :: qs, h⟩

end Frontend.Grammar
