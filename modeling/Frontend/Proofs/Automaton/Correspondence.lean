import Frontend.Proofs.Automaton.CanonicalForm

/-!
# Automata that words do not tell apart

In a deterministic automaton whose states are all reached, a state is known from the words that
lead to it. If the same words lead somewhere in two such automata, the same words lead to the same
place, and the places agree in what they recognise (`Corresponds`), then one is the other under new
names (`Corresponds.exists_renamedBy`).

Subset constructions are of this kind, and a word leads to the set that it reaches. So it is enough
that two automata, deterministic or not, agree about which words reach the same set and what these
sets recognise (`SameSets`): their subset constructions have one canonical form
(`SameSets.canonical_determinize_eq`).
-/

namespace Frontend.Automaton

variable {a b : Automaton} {s s' t t' u : String} {c : Char} {w : List Char}

/-! ## States that words pair up -/

/-- Some word leads to `s` in one automaton and to `t` in the other. -/
def Meets (a b : Automaton) (s t : String) : Prop :=
  ∃ w, a.Path a.initial w s ∧ b.Path b.initial w t

theorem Meets.symm (h : a.Meets b s t) : b.Meets a t s :=
  h.imp fun _ h => ⟨h.2, h.1⟩

/-- The same words lead somewhere and the same words lead to the same place, and the places have
the same tokens if they are final. -/
structure Corresponds (a b : Automaton) : Prop where
  leads_iff : ∀ {w}, (∃ s, a.Path a.initial w s) ↔ ∃ t, b.Path b.initial w t
  eq_iff : ∀ {s s' t t'}, a.Meets b s t → a.Meets b s' t' → (s = s' ↔ t = t')
  final_iff : ∀ {s t}, a.Meets b s t → (s ∈ a.finals ↔ t ∈ b.finals)
  tokens_eq : ∀ {s t}, a.Meets b s t → a.tokens.get? s = b.tokens.get? t

/-- A path of a deterministic automaton reads its last character in its last move. -/
theorem Path.concat_iff (hdet : a.isDeterministic = true) :
    a.Path s (w ++ [c]) u ↔ ∃ t, a.Path s w t ∧ u ∈ a.targets t (.symbol c) := by
  rw [append_iff]
  refine exists_congr fun t => and_congr_right fun _ => ?_
  constructor
  · intro h
    obtain ⟨r, v, hr, hv, hu⟩ := cons_iff.1 h
    rwa [(Path.refl t).unique hdet hr, ← (Path.refl v).unique hdet hu]
  · exact fun h => .read h (.refl u)

namespace Corresponds

variable (h : a.Corresponds b)

include h

theorem symm : b.Corresponds a where
  leads_iff := h.leads_iff.symm
  eq_iff := fun hs ht => (h.eq_iff hs.symm ht.symm).symm
  final_iff := fun hs => (h.final_iff hs.symm).symm
  tokens_eq := fun hs => (h.tokens_eq hs.symm).symm

theorem exists_meets (hpath : a.Path a.initial w s) : ∃ t, a.Meets b s t := by
  obtain ⟨t, ht⟩ := h.leads_iff.1 ⟨s, hpath⟩
  exact ⟨t, w, hpath, ht⟩

/-- A move from a state is matched by a move from its counterpart. -/
theorem exists_mem_targets {l : Label} (ha : a.isDeterministic = true)
    (hb : b.isDeterministic = true) (hs : a.Meets b s t) (hu : u ∈ a.targets s l) :
    ∃ v, v ∈ b.targets t l ∧ a.Meets b u v := by
  obtain ⟨w, hs, ht⟩ := hs
  cases l with
  | epsilon => exact absurd rfl (move_of_isDeterministic ha hu).1
  | symbol c =>
    have hpath : a.Path a.initial (w ++ [c]) u := (Path.concat_iff ha).2 ⟨s, hs, hu⟩
    obtain ⟨v, hv⟩ := h.leads_iff.1 ⟨u, hpath⟩
    obtain ⟨r, hr, hmove⟩ := (Path.concat_iff hb).1 hv
    obtain rfl := hr.unique hb ht
    exact ⟨v, hmove, w ++ [c], hpath, hv⟩

/-- **One of two automata that words do not tell apart is the other under new names**, if both are
deterministic and all their states are reached. -/
theorem exists_renamedBy (hwa : a.WellFormed) (hwb : b.WellFormed)
    (ha : a.isDeterministic = true) (hb : b.isDeterministic = true) (haccess : a.Accessible)
    (hbaccess : b.Accessible) : ∃ f, a.RenamedBy b f := by
  -- The new name of a state is that of its counterpart, and there is one only.
  have hex : ∀ s, ∃ t, s ∈ a.states → a.Meets b s t := by
    intro s
    by_cases hs : s ∈ a.states
    · obtain ⟨w, hpath⟩ := haccess s hs
      exact (h.exists_meets hpath).imp fun _ ht _ => ht
    · exact ⟨s, fun h => absurd h hs⟩
  choose f hf using hex
  have hmem : ∀ {s t}, a.Meets b s t → s ∈ a.states ∧ t ∈ b.states := by
    intro s t hst
    obtain ⟨w, hs, ht⟩ := hst
    exact ⟨hwa.mem_of_path hwa.initial_mem hs, hwb.mem_of_path hwb.initial_mem ht⟩
  have hname : ∀ {s t}, a.Meets b s t → f s = t :=
    fun hst => (h.eq_iff (hf _ (hmem hst).1) hst).1 rfl
  have hback : ∀ {t}, t ∈ b.states → ∃ s, a.Meets b s t := by
    intro t ht
    obtain ⟨w, hpath⟩ := hbaccess t ht
    exact (h.symm.exists_meets hpath).imp fun _ hs => hs.symm
  refine ⟨f, ?_⟩
  exact {
    separates := fun s hs t ht heq => (h.eq_iff (hf s hs) (hf t ht)).2 heq
    states := by
      ext t
      rw [OrdSet.mem_map]
      constructor
      · intro ht
        obtain ⟨s, hst⟩ := hback ht
        exact ⟨s, (hmem hst).1, hname hst⟩
      · intro ht
        obtain ⟨s, hs, rfl⟩ := ht
        exact (hmem (hf s hs)).2
    initial := (hname ⟨[], .refl _, .refl _⟩).symm
    finals := by
      ext t
      rw [OrdSet.mem_map]
      constructor
      · intro ht
        obtain ⟨s, hst⟩ := hback (hwb.finals_subset t ht)
        exact ⟨s, (h.final_iff hst).2 ht, hname hst⟩
      · intro ht
        obtain ⟨s, hs, rfl⟩ := ht
        exact (h.final_iff (hf s (hwa.finals_subset s hs))).1 hs
    mem_targets := by
      intro s l t
      constructor
      · intro ht
        obtain ⟨r, hrs⟩ := hback (hwb.mem_of_mem_targets ht).1
        obtain ⟨u, hu, htu⟩ := h.symm.exists_mem_targets hb ha hrs.symm ht
        exact ⟨r, u, hu, hname hrs, hname htu.symm⟩
      · intro ht
        obtain ⟨r, u, hu, rfl, rfl⟩ := ht
        have hr : a.Meets b r (f r) := hf r (hwa.mem_of_mem_targets hu).1
        obtain ⟨v, hv, huv⟩ := h.exists_mem_targets ha hb hr hu
        rwa [hname huv]
    tokens := by
      intro t token
      constructor
      · intro htoken
        have ht := hwb.token_final t token htoken
        obtain ⟨s, hst⟩ := hback (hwb.finals_subset t ht)
        exact ⟨s, (h.final_iff hst).2 ht, (h.tokens_eq hst).trans htoken, hname hst⟩
      · intro htoken
        obtain ⟨s, hs, htoken, rfl⟩ := htoken
        exact (h.tokens_eq (hf s (hwa.finals_subset s hs))).symm.trans htoken }

end Corresponds

/-! ## Subset constructions -/

/-- In a subset construction a word leads to the set that it reaches. -/
theorem path_determinize_iff (ha : a.SelfContained) {priority : List String} :
    (a.determinize priority).Path (a.determinize priority).initial w s ↔
      (∃ x, x ∈ a.reached w) ∧ s = (a.subsetSystem priority).name (a.reached w) := by
  have hproper : (a.subsetSystem priority).Proper := proper_subsetSystem ha
  rw [← mem_reached, determinize_eq, SetSystem.mem_reached_automaton hproper]
  constructor
  · exact fun h => ⟨h.1, h.2.2⟩
  · exact fun h => ⟨h.1, SetSystem.after_mem_sets hproper h.1, h.2⟩

/-- Two automata agree about which words reach the same set, which reach none at all, and what the
sets recognise. -/
structure SameSets (a b : Automaton) : Prop where
  alphabet : a.alphabet = b.alphabet
  reached_eq_iff : ∀ {w w'}, a.reached w = a.reached w' ↔ b.reached w = b.reached w'
  reached_some_iff : ∀ {w}, (∃ s, s ∈ a.reached w) ↔ ∃ t, t ∈ b.reached w
  accepts_iff : ∀ {word}, a.accepts word = true ↔ b.accepts word = true
  recognizes_iff : ∀ {w token}, a.Recognizes w token ↔ b.Recognizes w token

namespace SameSets

variable (h : a.SameSets b) (ha : a.SelfContained) (hb : b.SelfContained) (priority : List String)

include h

theorem isFinal_eq : (a.subsetSystem priority).isFinal (a.reached w) =
    (b.subsetSystem priority).isFinal (b.reached w) := by
  have haccepts : a.accepts (String.ofList w) = b.accepts (String.ofList w) :=
    Bool.eq_iff_iff.2 h.accepts_iff
  rw [accepts, accepts, run, run, String.toList_ofList] at haccepts
  exact haccepts

theorem tokenOfSet_eq :
    a.tokenOfSet priority (a.reached w) = b.tokenOfSet priority (b.reached w) := by
  ext token
  rw [tokenOfSet, tokenOfSet, preferredToken_eq_some_iff, preferredToken_eq_some_iff]
  simp only [mem_tokens_iff, h.recognizes_iff]

include ha hb

theorem corresponds : (a.determinize priority).Corresponds (b.determinize priority) := by
  have hpa : (a.subsetSystem priority).Proper := proper_subsetSystem ha
  have hpb : (b.subsetSystem priority).Proper := proper_subsetSystem hb
  -- States that meet are the sets that one word reaches in the two automata.
  have hmeets : ∀ {s t}, (a.determinize priority).Meets (b.determinize priority) s t →
      ∃ w, a.reached w ∈ (a.subsetSystem priority).sets ∧
        b.reached w ∈ (b.subsetSystem priority).sets ∧
        s = (a.subsetSystem priority).name (a.reached w) ∧
        t = (b.subsetSystem priority).name (b.reached w) := by
    intro s t hst
    obtain ⟨w, hs, ht⟩ := hst
    obtain ⟨hsome, hs⟩ := (path_determinize_iff ha).1 hs
    obtain ⟨hsome', ht⟩ := (path_determinize_iff hb).1 ht
    exact ⟨w, SetSystem.after_mem_sets hpa hsome, SetSystem.after_mem_sets hpb hsome', hs, ht⟩
  exact {
    leads_iff := by
      intro w
      simp only [path_determinize_iff ha, path_determinize_iff hb, exists_and_left, exists_eq,
        and_true]
      exact h.reached_some_iff
    eq_iff := by
      intro s s' t t' hst hst'
      obtain ⟨w, hwa, hwb, rfl, rfl⟩ := hmeets hst
      obtain ⟨w', hwa', hwb', rfl, rfl⟩ := hmeets hst'
      constructor
      · intro heq
        rw [h.reached_eq_iff.1 (hpa.name_inj _ hwa _ hwa' heq)]
      · intro heq
        rw [h.reached_eq_iff.2 (hpb.name_inj _ hwb _ hwb' heq)]
    final_iff := by
      intro s t hst
      obtain ⟨w, hwa, hwb, rfl, rfl⟩ := hmeets hst
      rw [determinize_eq, determinize_eq, SetSystem.mem_finals_iff hpa hwa,
        SetSystem.mem_finals_iff hpb hwb, h.isFinal_eq]
    tokens_eq := by
      intro s t hst
      obtain ⟨w, hwa, hwb, rfl, rfl⟩ := hmeets hst
      rw [determinize_eq, determinize_eq, SetSystem.get?_tokens hpa hwa,
        SetSystem.get?_tokens hpb hwb, h.isFinal_eq]
      exact if_congr Iff.rfl (h.tokenOfSet_eq priority) rfl }

/-- **Automata that agree about the sets that words reach have subset constructions of one
canonical form.** -/
theorem canonical_determinize_eq :
    (a.determinize priority).canonical = (b.determinize priority).canonical := by
  have hwa : (a.determinize priority).WellFormed := wellFormed_determinize ha
  have hwb : (b.determinize priority).WellFormed := wellFormed_determinize hb
  have hdet : (a.determinize priority).isDeterministic = true := isDeterministic_determinize ha
  have haccess := accessible_determinize ha priority
  obtain ⟨f, hf⟩ := (h.corresponds ha hb priority).exists_renamedBy hwa hwb hdet
    (isDeterministic_determinize hb) haccess (accessible_determinize hb priority)
  exact (hf.canonical_eq hwa hdet haccess h.alphabet.symm hwb).symm

end SameSets

end Frontend.Automaton
