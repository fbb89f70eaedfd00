import Frontend.Grammar.Basic
import Frontend.Proofs.Exploration

/-!
# Rules as the productions that were added

`Rules` lists each head once, so it is known from its heads and from the bodies of each head
(`Rules.ext_bodiesOf`). Adding bodies leaves the order of the heads alone and puts the new bodies
behind the old ones. So the rules of a list of productions (`Rules.ofProductions`) have the heads
in order of first appearance, and each head has its bodies in order
(`Rules.heads_ofProductions`, `Rules.bodiesOf_ofProductions`); both follow the list from its end.
-/

namespace Frontend.Rules

variable {r s : Rules} {head h : String} {bodies more : List Body} {f g : List Body → List Body}
  {l : List (String × List Body)}

/-! ## Writing -/

theorem map_fst_write : (write head f l).map Prod.fst =
    if head ∈ l.map Prod.fst then l.map Prod.fst else l.map Prod.fst ++ [head] := by
  induction l with
  | nil => rfl
  | cons e l ih =>
    obtain ⟨k, old⟩ := e
    rw [write]
    split
    · next heq =>
      rw [if_pos (heq ▸ List.mem_cons_self)]
      rfl
    · next hne =>
      rw [List.map_cons, List.map_cons, ih]
      by_cases hmem : head ∈ l.map Prod.fst
      · rw [if_pos hmem, if_pos (List.mem_cons_of_mem _ hmem)]
      · rw [if_neg hmem, if_neg (List.not_mem_cons_of_ne_of_not_mem (Ne.symm hne) hmem)]
        rfl

theorem lookup_write : ((write head f l).lookup h).getD [] =
    if h = head then f ((l.lookup h).getD []) else (l.lookup h).getD [] := by
  induction l with
  | nil =>
    rw [write, List.lookup_cons]
    by_cases heq : h = head
    · rw [if_pos heq, beq_iff_eq.2 heq]
      rfl
    · rw [if_neg heq, beq_eq_false_iff_ne.2 heq]
  | cons e l ih =>
    obtain ⟨k, old⟩ := e
    rw [write, List.lookup_cons]
    split
    · next heq =>
      subst heq
      rw [List.lookup_cons]
      by_cases hk : h = k
      · rw [if_pos hk, beq_iff_eq.2 hk]
        rfl
      · rw [if_neg hk, beq_eq_false_iff_ne.2 hk]
    · next hne =>
      rw [List.lookup_cons]
      by_cases hk : h = k
      · rw [if_neg (hk ▸ hne), beq_iff_eq.2 hk]
      · rw [beq_eq_false_iff_ne.2 hk]
        exact ih

theorem write_write : write head f (write head g l) = write head (f ∘ g) l := by
  induction l with
  | nil => exact if_pos rfl
  | cons e l ih =>
    obtain ⟨k, old⟩ := e
    rw [write, write]
    split
    · next heq => rw [write, if_pos heq, Function.comp_apply]
    · next hne => rw [write, if_neg hne, ih]

/-! ## Heads and bodies -/

theorem heads_add :
    (r.add head bodies).heads = if head ∈ r.heads then r.heads else r.heads ++ [head] :=
  map_fst_write

theorem bodiesOf_add : (r.add head bodies).bodiesOf h =
    if h = head then r.bodiesOf h ++ bodies else r.bodiesOf h :=
  lookup_write

theorem add_add : (r.add head bodies).add head more = r.add head (bodies ++ more) := by
  rw [← toList_inj]
  refine write_write.trans (congrArg (write head · r.toList) (funext fun old => ?_))
  exact List.append_assoc old bodies more

/-- The bodies that are listed with a head are the bodies of that head. -/
theorem bodiesOf_eq_of_mem (hmem : (head, bodies) ∈ r.toList) : r.bodiesOf head = bodies := by
  obtain ⟨before, after, heq⟩ := List.append_of_mem hmem
  have hnodup := r.nodup
  rw [heq, List.map_append, List.map_cons] at hnodup
  have hfirst : ∀ e ∈ before, (head != e.1) = true := by
    intro e he
    have hdisjoint := (List.nodup_append.1 hnodup).2.2
    exact bne_iff_ne.2 (hdisjoint e.1 (List.mem_map_of_mem he) head List.mem_cons_self).symm
  rw [bodiesOf, List.lookup_eq_some_iff.2 ⟨before, after, heq, hfirst⟩, Option.getD_some]

theorem toList_eq (r : Rules) : r.toList = r.heads.map fun head => (head, r.bodiesOf head) := by
  have hself : r.toList.map (fun e => (e.1, r.bodiesOf e.1)) = r.toList.map id := by
    refine List.map_congr_left ?_
    rintro ⟨head, bodies⟩ hmem
    exact congrArg (Prod.mk head) (bodiesOf_eq_of_mem hmem)
  rw [List.map_id] at hself
  rw [heads, List.map_map]
  exact hself.symm

/-- Rules with the same heads in the same order, and the same bodies of each head, are the same. -/
theorem ext_bodiesOf (hheads : r.heads = s.heads) (hbodies : ∀ h, r.bodiesOf h = s.bodiesOf h) :
    r = s := by
  rw [← toList_inj, toList_eq, toList_eq, hheads]
  exact List.map_congr_left fun h _ => by rw [hbodies]

theorem heads_mapBodies : (r.mapBodies f).heads = r.heads := by
  rw [heads, mapBodies, List.map_map]
  rfl

theorem bodiesOf_mapBodies (hf : f [] = []) : (r.mapBodies f).bodiesOf h = f (r.bodiesOf h) := by
  have hlookup : ∀ l : List (String × List Body),
      ((l.map fun e => (e.1, f e.2)).lookup h).getD [] = f ((l.lookup h).getD []) := by
    intro l
    induction l with
    | nil => exact hf.symm
    | cons e l ih =>
      obtain ⟨k, bodies⟩ := e
      rw [List.map_cons, List.lookup_cons, List.lookup_cons]
      cases h == k with
      | true => rfl
      | false => exact ih
  exact hlookup r.toList

/-! ## Productions -/

/-- The rules to which the productions were added one by one. -/
def ofProductions (ps : List Production) : Rules :=
  ps.foldl (fun r p => r.add p.head [p.body]) ∅

theorem ofProductions_concat (ps : List Production) (p : Production) :
    ofProductions (ps ++ [p]) = (ofProductions ps).add p.head [p.body] := by
  rw [ofProductions, List.foldl_append]
  rfl

/-- Several bodies of one head can be added at once. -/
theorem ofProductions_append (ps : List Production) (head : String) (hbodies : bodies ≠ []) :
    ofProductions (ps ++ bodies.map (⟨head, ·⟩)) = (ofProductions ps).add head bodies := by
  induction bodies using List.reverseRecOn with
  | nil => exact absurd rfl hbodies
  | append_singleton bodies body ih =>
    rw [List.map_append, ← List.append_assoc]
    refine (ofProductions_concat _ _).trans ?_
    by_cases hnil : bodies = []
    · rw [hnil, List.map_nil, List.append_nil, List.nil_append]
    · rw [ih hnil, add_add]

/-- The heads stand in order of first appearance. -/
theorem heads_ofProductions (ps : List Production) :
    (ofProductions ps).heads = newcomers [] (ps.map Production.head) := by
  induction ps using List.reverseRecOn with
  | nil => rfl
  | append_singleton ps p ih =>
    rw [ofProductions_concat, heads_add, ih, List.map_append, List.map_singleton, newcomers_concat]
    simp only [mem_newcomers, List.not_mem_nil, not_false_eq_true, and_true, false_or]

/-- The bodies of a head stand in order. -/
theorem bodiesOf_ofProductions (ps : List Production) (h : String) :
    (ofProductions ps).bodiesOf h = (ps.filter (·.head = h)).map Production.body := by
  induction ps using List.reverseRecOn with
  | nil => rfl
  | append_singleton ps p ih =>
    rw [ofProductions_concat, bodiesOf_add, ih, List.filter_append, List.map_append]
    by_cases heq : h = p.head
    · rw [if_pos heq, List.filter_cons_of_pos (by simpa using heq.symm)]
      rfl
    · rw [if_neg heq, List.filter_cons_of_neg (by simpa using Ne.symm heq), List.filter_nil,
        List.map_nil, List.append_nil]

end Frontend.Rules
