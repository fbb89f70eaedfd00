import Frontend.LR.Parse
import Frontend.Proofs.Grammar.Derivation

/-!
# Runs of a parser

`ParseTable.Runs t c ms d` says that the table leads from the configuration `c` by the moves
`ms` to `d`. A parse has an outcome exactly if a run leads from where it begins to a
configuration in which the parser halts (`runFrom_ok`, `exists_runFrom`); the trace of the
outcome lists the moves of the run and the last one. It ends in an error only after a run to a
configuration that the table does not fit (`runFrom_error`), and has no answer only if there is
a run of as many moves as there may be steps (`exists_run_of_runFrom_eq_none`).

A parser has no choice, so of two runs from one configuration one goes on with the other
(`Runs.linear`). It looks at one symbol behind those that it shifts, whatever comes after
(`Runs.congr_input`).
-/

namespace Frontend

/-- The production that a move reduces by. -/
def ParseMove.production? : ParseMove → Option Production
  | .reduce _ p => some p
  | _ => none

/-- The productions that a list of moves reduces by, in order. -/
def reductionsOf (ms : List ParseMove) : List Production := ms.filterMap ParseMove.production?

/-- The moves of a parse, in order. -/
def ParseOutcome.moves (o : ParseOutcome) : List ParseMove := o.trace.map TraceRow.move

/-- The productions that a parse reduced by, in order. -/
def ParseOutcome.reducedBy (o : ParseOutcome) : List Production := reductionsOf o.moves

/-- Tells whether a move reads a symbol. -/
def ParseMove.isShift : ParseMove → Bool
  | .shift _ => true
  | _ => false

/-- The number of symbols that a list of moves reads. -/
def shiftsOf (ms : List ParseMove) : Nat := ms.countP ParseMove.isShift

theorem reductionsOf_append (ms ns : List ParseMove) :
    reductionsOf (ms ++ ns) = reductionsOf ms ++ reductionsOf ns :=
  List.filterMap_append

theorem shiftsOf_append (ms ns : List ParseMove) :
    shiftsOf (ms ++ ns) = shiftsOf ms + shiftsOf ns :=
  List.countP_append

@[simp] theorem shiftsOf_nil : shiftsOf [] = 0 := rfl

@[simp] theorem shiftsOf_shift (r : Nat) (ms : List ParseMove) :
    shiftsOf (.shift r :: ms) = shiftsOf ms + 1 := List.countP_cons_of_pos rfl

@[simp] theorem shiftsOf_reduce (n : Nat) (p : Production) (ms : List ParseMove) :
    shiftsOf (.reduce n p :: ms) = shiftsOf ms := List.countP_cons_of_neg nofun

@[simp] theorem reductionsOf_nil : reductionsOf [] = [] := rfl

@[simp] theorem reductionsOf_shift (r : Nat) (ms : List ParseMove) :
    reductionsOf (.shift r :: ms) = reductionsOf ms := rfl

@[simp] theorem reductionsOf_reduce (n : Nat) (p : Production) (ms : List ParseMove) :
    reductionsOf (.reduce n p :: ms) = p :: reductionsOf ms := rfl

/-- The move at which a production is reduced by, with what comes before and after it. -/
theorem exists_of_reductionsOf_eq {ms : List ParseMove} {ps qs : List Production} {p : Production}
    (h : reductionsOf ms = ps ++ p :: qs) :
    ∃ before n after, ms = before ++ .reduce n p :: after ∧ reductionsOf before = ps ∧
      reductionsOf after = qs := by
  obtain ⟨front, back, rfl, hfront, hback⟩ := List.filterMap_eq_append_iff.1 h
  obtain ⟨skipped, m, after, rfl, hskipped, hm, hafter⟩ := List.filterMap_eq_cons_iff.1 hback
  obtain ⟨n, rfl⟩ : ∃ n, m = .reduce n p := by
    cases m <;> simp_all [ParseMove.production?]
  refine ⟨front ++ skipped, n, after, by simp, ?_, hafter⟩
  rw [reductionsOf_append, reductionsOf, hfront, reductionsOf, List.filterMap_eq_nil_iff.2 hskipped,
    List.append_nil]

namespace ParseTable

variable {t : ParseTable} {c d e : Configuration} {ms ns : List ParseMove} {m : ParseMove}

/-- The table leads from one configuration to another by a list of moves. -/
inductive Runs (t : ParseTable) : Configuration → List ParseMove → Configuration → Prop
  | refl (c : Configuration) : Runs t c [] c
  | step {c d e : Configuration} {m : ParseMove} {ms : List ParseMove}
    (h : t.step c = .proceed m d) (rest : Runs t d ms e) : Runs t c (m :: ms) e

theorem Runs.trans (h : t.Runs c ms d) (h' : t.Runs d ns e) : t.Runs c (ms ++ ns) e := by
  induction h with
  | refl c => exact h'
  | step hstep _ ih => exact .step hstep (ih h')

/-- A run in two parts. -/
theorem Runs.split (h : t.Runs c (ms ++ ns) e) : ∃ d, t.Runs c ms d ∧ t.Runs d ns e := by
  induction ms generalizing c with
  | nil => exact ⟨c, .refl c, h⟩
  | cons m ms ih =>
    cases h with
    | step hstep rest =>
      obtain ⟨d, hd, he⟩ := ih rest
      exact ⟨d, .step hstep hd, he⟩

/-- **A parser has no choice**: of two runs one goes on with the other. -/
theorem Runs.linear (h : t.Runs c ms d) (h' : t.Runs c ns e) :
    (∃ rest, ms = ns ++ rest ∧ t.Runs e rest d) ∨ ∃ rest, ns = ms ++ rest ∧ t.Runs d rest e := by
  induction h generalizing ns with
  | refl c => exact .inr ⟨ns, rfl, h'⟩
  | @step c d' d m ms hstep rest ih =>
    cases h' with
    | refl => exact .inl ⟨m :: ms, rfl, .step hstep rest⟩
    | step hstep' rest' =>
      obtain ⟨rfl, rfl⟩ := StepResult.proceed.inj (hstep.symm.trans hstep')
      rcases ih rest' with ⟨more, rfl, hmore⟩ | ⟨more, rfl, hmore⟩
      · exact .inl ⟨more, rfl, hmore⟩
      · exact .inr ⟨more, rfl, hmore⟩

/-- Every run is the beginning of the one that comes to a halt. -/
theorem Runs.extends_of_halt {accepted : Bool} (h : t.Runs c ms d)
    (hhalt : t.step d = .halt m accepted) (h' : t.Runs c ns e) :
    ∃ rest, ms = ns ++ rest ∧ t.Runs e rest d := by
  rcases h.linear h' with hrest | ⟨rest, rfl, hrest⟩
  · exact hrest
  · cases hrest with
    | refl => exact ⟨[], by simp, .refl _⟩
    | step hstep => cases hstep.symm.trans hhalt

/-- There is one run that comes to a halt. -/
theorem Runs.eq_of_halt {m' : ParseMove} {accepted accepted' : Bool} (h : t.Runs c ms d)
    (hhalt : t.step d = .halt m accepted) (h' : t.Runs c ns e)
    (hhalt' : t.step e = .halt m' accepted') : ms = ns ∧ d = e := by
  obtain ⟨rest, rfl, hrest⟩ := h.extends_of_halt hhalt h'
  cases hrest with
  | refl => exact ⟨List.append_nil ns, rfl⟩
  | step hstep => cases hstep.symm.trans hhalt'

/-! ## What a run reads -/

/-- What a parser can do in one step: shift, or replace a body by its head. -/
theorem step_eq_proceed_iff :
    t.step c = .proceed m d ↔
      (∃ r, t.actionAt? c = some (.shift r) ∧ m = .shift r ∧
        d = ⟨r :: c.stack, c.input.tail⟩) ∨
      ∃ n p r, t.actionAt? c = some (.reduce n) ∧ t.productions[n]? = some p ∧
        p.body.length < c.stack.length ∧
          t.action? ((c.stack.drop p.body.length).headD 0) p.head = some (.goto r) ∧
            m = .reduce n p ∧ d = ⟨r :: c.stack.drop p.body.length, c.input⟩ := by
  unfold step
  constructor
  · intro h
    split at h
    · next r ha =>
      obtain ⟨rfl, rfl⟩ := StepResult.proceed.inj h
      exact .inl ⟨r, ha, rfl, rfl⟩
    · next n ha =>
      split at h
      · next p hp =>
        unfold reduce at h
        split at h
        · next hlength =>
          dsimp only at h
          split at h
          · next r hgoto =>
            obtain ⟨rfl, rfl⟩ := StepResult.proceed.inj h
            exact .inr ⟨n, p, r, ha, hp, hlength, hgoto, rfl, rfl⟩
          · cases h
        · cases h
      · cases h
    · cases h
    · cases h
    · cases h
  · rintro (⟨r, ha, rfl, rfl⟩ | ⟨n, p, r, ha, hp, hlength, hgoto, rfl, rfl⟩)
    · rw [ha]
    · rw [ha]
      dsimp only
      rw [hp]
      dsimp only
      rw [reduce, if_pos hlength]
      dsimp only
      rw [hgoto]

/-- Where a parser halts: it accepts, or there is nothing to do but to refuse. -/
theorem step_eq_halt_iff {accepted : Bool} :
    t.step c = .halt m accepted ↔
      (t.actionAt? c = some .accept ∧ m = .accept ∧ accepted = true) ∨
        ((∀ a, t.actionAt? c = some a → ∃ r, a = .goto r) ∧ m = .refuse ∧ accepted = false) := by
  unfold step
  cases ha : t.actionAt? c with
  | none => simp [eq_comm]
  | some a =>
    cases a with
    | shift r => simp
    | reduce n =>
      cases hp : t.productions[n]? with
      | none => simp [hp]
      | some p =>
        simp only [hp, reduce]
        split
        · split <;> simp
        · simp
    | goto r => simp [eq_comm]
    | accept => simp [eq_comm]

/-- A step asks for no more than the first symbol of the input. -/
theorem actionAt?_congr {stack : List Nat} {input input' : List String}
    (hhead : input'.head? = input.head?) :
    t.actionAt? ⟨stack, input'⟩ = t.actionAt? ⟨stack, input⟩ := by
  rw [actionAt?, actionAt?, hhead]
  rfl

/-- A step reads one symbol if it is a shift. -/
theorem step_congr {stack : List Nat} {input input' : List String}
    (hstep : t.step ⟨stack, input⟩ = .proceed m d) (hhead : input'.head? = input.head?) :
    d.input = input.drop (shiftsOf [m]) ∧
      t.step ⟨stack, input'⟩ = .proceed m ⟨d.stack, input'.drop (shiftsOf [m])⟩ := by
  rw [step_eq_proceed_iff, actionAt?_congr hhead]
  rcases step_eq_proceed_iff.1 hstep with
    ⟨r, ha, rfl, rfl⟩ | ⟨n, p, r, ha, hp, hlt, hgoto, rfl, rfl⟩
  · rw [shiftsOf_shift, shiftsOf_nil, Nat.zero_add, List.drop_one, List.drop_one]
    exact ⟨rfl, .inl ⟨r, ha, rfl, rfl⟩⟩
  · exact ⟨rfl, .inr ⟨n, p, r, ha, hp, hlt, hgoto, rfl, rfl⟩⟩

theorem step_halt_congr {stack : List Nat} {input input' : List String} {accepted : Bool}
    (hstep : t.step ⟨stack, input⟩ = .halt m accepted) (hhead : input'.head? = input.head?) :
    t.step ⟨stack, input'⟩ = .halt m accepted := by
  rw [step_eq_halt_iff] at hstep ⊢
  rwa [actionAt?_congr hhead]

theorem Runs.input (h : t.Runs c ms d) : d.input = c.input.drop (shiftsOf ms) := by
  induction h with
  | refl c => rfl
  | @step c d e m ms hstep _ ih =>
    rw [ih, (step_congr hstep rfl).1, List.drop_drop, ← shiftsOf_append, List.singleton_append]

/-- **A run looks at one symbol behind those that it reads**, so any other input that begins in
the same way leads to the same stack. -/
theorem Runs.congr_input {stack : List Nat} {input input' : List String}
    (h : t.Runs ⟨stack, input⟩ ms d)
    (htake : input'.take (shiftsOf ms + 1) = input.take (shiftsOf ms + 1)) :
    t.Runs ⟨stack, input'⟩ ms ⟨d.stack, input'.drop (shiftsOf ms)⟩ := by
  generalize hc : (⟨stack, input⟩ : Configuration) = c at h
  induction h generalizing stack input input' with
  | refl c =>
    subst hc
    exact .refl _
  | @step c d e m ms hstep _ ih =>
    subst hc
    have hhead : input'.head? = input.head? := by
      have hfirst := congrArg List.head? htake
      rwa [List.head?_take, List.head?_take, if_neg (Nat.succ_ne_zero _),
        if_neg (Nat.succ_ne_zero _)] at hfirst
    obtain ⟨hinput, hstep'⟩ := step_congr hstep hhead
    rw [← List.singleton_append, shiftsOf_append] at htake ⊢
    have hrest : (input'.drop (shiftsOf [m])).take (shiftsOf ms + 1) =
        d.input.take (shiftsOf ms + 1) := by
      rw [hinput, List.take_drop, List.take_drop, ← Nat.add_assoc, htake]
    have hruns := ih hrest rfl
    rw [List.drop_drop] at hruns
    exact .step hstep' hruns

/-- A move of a run is a shift or a reduction. -/
theorem Runs.length_eq (h : t.Runs c ms d) :
    ms.length = shiftsOf ms + (reductionsOf ms).length := by
  induction h with
  | refl c => rfl
  | @step c d e m ms hstep _ ih =>
    rw [List.length_cons, ih]
    rcases step_eq_proceed_iff.1 hstep with ⟨r, -, rfl, -⟩ | ⟨n, p, r, -, -, -, -, rfl, -⟩
    · rw [shiftsOf_shift, reductionsOf_shift, Nat.add_right_comm]
    · rw [shiftsOf_reduce, reductionsOf_reduce, List.length_cons, Nat.add_assoc]

/-! ## Parses as runs -/

/-- An outcome comes from a run to a configuration in which the parser halts; it counts the
shifts, and its last row shows this configuration. -/
theorem runFrom_run {tokens limit : Nat} {p : Progress} {o : ParseOutcome}
    (h : t.runFrom tokens limit p = some (.ok o)) :
    ∃ ms d m, t.Runs p.configuration ms d ∧ t.step d = .halt m o.accepted ∧
      o.moves = (p.trace.map TraceRow.move).reverse ++ ms ++ [m] ∧
        o.shifts = p.shifts + shiftsOf ms ∧ ∃ n, o.trace.getLast? = some ⟨n, d, m⟩ := by
  induction limit generalizing p with
  | zero => cases h
  | succ limit ih =>
    unfold runFrom at h
    split at h
    · cases h
    · next m accepted hstep =>
      obtain rfl := Except.ok.inj (Option.some.inj h)
      refine ⟨[], _, m, .refl _, hstep, ?_, rfl, p.trace.length + 1, ?_⟩
      · simp [ParseOutcome.moves, Progress.record]
      · simp [Progress.record]
    · next m c hstep =>
      obtain ⟨ms, d, m', hruns, hhalt, hmoves, hshifts, hlast⟩ := ih h
      refine ⟨m :: ms, d, m', .step hstep hruns, hhalt, ?_, ?_, hlast⟩
      · rw [hmoves]
        cases m <;> simp [Progress.record, Progress.count]
      · rw [hshifts, ← List.singleton_append, shiftsOf_append, ← Nat.add_assoc]
        cases m <;> rfl

/-- An outcome comes from a run to a configuration in which the parser halts. -/
theorem runFrom_ok {tokens limit : Nat} {p : Progress} {o : ParseOutcome}
    (h : t.runFrom tokens limit p = some (.ok o)) :
    ∃ ms d m, t.Runs p.configuration ms d ∧ t.step d = .halt m o.accepted ∧
      o.moves = (p.trace.map TraceRow.move).reverse ++ ms ++ [m] := by
  obtain ⟨ms, d, m, hruns, hhalt, hmoves, -⟩ := runFrom_run h
  exact ⟨ms, d, m, hruns, hhalt, hmoves⟩

/-- No answer comes from a run of as many moves as there may be steps. -/
theorem exists_run_of_runFrom_eq_none {tokens limit : Nat} {p : Progress}
    (h : t.runFrom tokens limit p = none) :
    ∃ ms d, t.Runs p.configuration ms d ∧ ms.length = limit := by
  induction limit generalizing p with
  | zero => exact ⟨[], _, .refl _, rfl⟩
  | succ limit ih =>
    unfold runFrom at h
    split at h
    · cases h
    · cases h
    · next m c hstep =>
      obtain ⟨ms, d, hruns, hlength⟩ := ih h
      exact ⟨m :: ms, d, .step hstep hruns, congrArg (· + 1) hlength⟩

/-- An error comes from a run to a configuration in which the parser cannot go on. -/
theorem runFrom_error {tokens limit : Nat} {p : Progress} {e : Error}
    (h : t.runFrom tokens limit p = some (.error e)) :
    ∃ ms d, t.Runs p.configuration ms d ∧ t.step d = .fault e := by
  induction limit generalizing p with
  | zero => cases h
  | succ limit ih =>
    unfold runFrom at h
    split at h
    · next e' hstep =>
      obtain rfl := Except.error.inj (Option.some.inj h)
      exact ⟨[], _, .refl _, hstep⟩
    · cases h
    · next m c hstep =>
      obtain ⟨ms, d, hruns, hfault⟩ := ih h
      exact ⟨m :: ms, d, .step hstep hruns, hfault⟩

/-- A run to a configuration in which the parser halts gives an outcome, after one step more
than there are moves. -/
theorem exists_runFrom (tokens : Nat) {p : Progress} {accepted : Bool}
    (h : t.Runs c ms d) (hhalt : t.step d = .halt m accepted) (hp : p.configuration = c) :
    ∃ o, t.runFrom tokens (ms.length + 1) p = some (.ok o) ∧ o.accepted = accepted ∧
      o.moves = (p.trace.map TraceRow.move).reverse ++ ms ++ [m] := by
  induction h generalizing p with
  | refl c =>
    subst hp
    refine ⟨⟨accepted, (p.record m).trace.reverse, tokens, p.shifts, p.reductions⟩, ?_, rfl, ?_⟩
    · rw [List.length_nil, runFrom, hhalt]
    · simp [ParseOutcome.moves, Progress.record]
  | @step c d e m' ms hstep _ ih =>
    subst hp
    -- The rest of the run starts from the progress with this move recorded.
    obtain ⟨o, ho, haccepted, hmoves⟩ :=
      ih (p := { (p.record m').count m' with configuration := d }) hhalt rfl
    refine ⟨o, ?_, haccepted, ?_⟩
    · rw [List.length_cons, runFrom, hstep]
      exact ho
    · rw [hmoves]
      cases m' <;> simp [Progress.record, Progress.count]

/-- There is no answer, whatever the limit, where every step leads on to a configuration of the
same kind. -/
theorem runFrom_eq_none {p : Configuration → Prop}
    (hstep : ∀ c, p c → ∃ m d, t.step c = .proceed m d ∧ p d) (tokens limit : Nat)
    {start : Progress} (hp : p start.configuration) : t.runFrom tokens limit start = none := by
  induction limit generalizing start with
  | zero => rfl
  | succ limit ih =>
    obtain ⟨m, d, hm, hd⟩ := hstep _ hp
    rw [runFrom, hm]
    exact ih hd

/-- An answer does not depend on the limit. -/
theorem runFrom_mono {tokens limit more : Nat} {p : Progress} {r : Except Error ParseOutcome}
    (hmore : limit ≤ more) (h : t.runFrom tokens limit p = some r) :
    t.runFrom tokens more p = some r := by
  induction limit generalizing more p with
  | zero => cases h
  | succ limit ih =>
    obtain ⟨more, rfl⟩ : ∃ k, more = k + 1 := ⟨more - 1, by omega⟩
    rw [runFrom] at h ⊢
    split at h
    · exact h
    · exact h
    · exact ih (by omega) h

end ParseTable

end Frontend
