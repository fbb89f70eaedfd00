import Frontend.Fresh
import Mathlib.Data.List.Nodup
import Mathlib.Data.List.Perm.Subperm
import Std.Data.String.ToNat

/-!
# Fresh names are fresh

`fresh` looks at one more candidate than there are taken names. If the candidates are all
different, one of them must be free, so the name that it gives is not taken (`fresh_not_mem`), and
it is the one at which a search without a limit ends (`firstFree_fresh`). The candidates of this
library are told apart by their lengths, since they repeat a mark (`repeated_append_injective`,
`append_repeated_injective`), or by a number.
-/

namespace Frontend

/-- The name that is given is a candidate such that all before it are taken, and it is free itself
if the tries were not used up. -/
theorem freshFrom_spec (taken : List String) (candidate : Nat → String) (tries k : Nat) :
    ∃ n, freshFrom taken candidate tries k = candidate (k + n) ∧
      (∀ i < n, candidate (k + i) ∈ taken) ∧ (candidate (k + n) ∈ taken → n = tries) := by
  induction tries generalizing k with
  | zero => exact ⟨0, rfl, fun i hi => absurd hi (Nat.not_lt_zero i), fun _ => rfl⟩
  | succ tries ih =>
    unfold freshFrom
    split
    · next hk =>
      obtain ⟨n, heq, hall, hlast⟩ := ih (k + 1)
      rw [Nat.add_assoc, Nat.add_comm 1] at heq hlast
      refine ⟨n + 1, heq, fun i hi => ?_, fun h => congrArg (· + 1) (hlast h)⟩
      cases i with
      | zero => exact hk
      | succ i =>
        rw [Nat.add_comm i 1, ← Nat.add_assoc]
        exact hall i (Nat.lt_of_succ_lt_succ hi)
    · next hk => exact ⟨0, rfl, fun i hi => absurd hi (Nat.not_lt_zero i), fun h => absurd h hk⟩

/-- **A fresh name is not taken**, if the candidates are all different. -/
theorem fresh_not_mem {taken : List String} {candidate : Nat → String}
    (hinj : Function.Injective candidate) : fresh taken candidate ∉ taken := by
  intro h
  obtain ⟨n, heq, hall, hlast⟩ := freshFrom_spec taken candidate taken.length 0
  simp only [Nat.zero_add] at heq hall hlast
  rw [fresh, heq] at h
  -- If the name is taken, so are all candidates that were looked at, and they are too many.
  obtain rfl := hlast h
  have hnodup : ((List.range (taken.length + 1)).map candidate).Nodup :=
    List.nodup_range.map hinj
  have hsub : ∀ name ∈ (List.range (taken.length + 1)).map candidate, name ∈ taken := by
    intro name hname
    obtain ⟨i, hi, rfl⟩ := List.mem_map.1 hname
    rcases Nat.lt_succ_iff_lt_or_eq.1 (List.mem_range.1 hi) with hi | rfl
    · exact hall i hi
    · exact h
  have hlen := (List.subperm_of_subset hnodup hsub).length_le
  rw [List.length_map, List.length_range] at hlen
  omega

/-- A name is the first of the candidates that is not taken: a search that tries them one after
the other ends with it. -/
def FirstFree (taken : String → Prop) (candidate : Nat → String) (name : String) : Prop :=
  ∃ k, name = candidate k ∧ ¬ taken name ∧ ∀ i < k, taken (candidate i)

theorem FirstFree.congr {taken taken' : String → Prop} {candidate : Nat → String} {name : String}
    (h : FirstFree taken candidate name) (heq : ∀ x, taken x ↔ taken' x) :
    FirstFree taken' candidate name := by
  simpa only [FirstFree, heq] using h

/-- **A fresh name is the first free candidate**, if the candidates are all different. -/
theorem firstFree_fresh {taken : List String} {candidate : Nat → String}
    (hinj : Function.Injective candidate) :
    FirstFree (· ∈ taken) candidate (fresh taken candidate) := by
  obtain ⟨n, heq, hall, -⟩ := freshFrom_spec taken candidate taken.length 0
  simp only [Nat.zero_add] at heq hall
  exact ⟨n, heq, fresh_not_mem hinj, hall⟩

/-- The first candidate is given if it is free. -/
theorem fresh_eq_of_not_mem {taken : List String} {candidate : Nat → String}
    (h : candidate 0 ∉ taken) : fresh taken candidate = candidate 0 := by
  unfold fresh
  cases taken.length with
  | zero => rfl
  | succ tries => exact if_neg h

/-! ## Candidates -/

theorem length_repeated (n : Nat) (text : String) :
    (repeated n text).length = n * text.length := by
  rw [repeated, String.length_join, List.map_replicate, List.sum_replicate_nat]

theorem append_repeated_injective (name : String) {mark : String} (hmark : 0 < mark.length) :
    Function.Injective fun k => name ++ repeated k mark := by
  intro i j h
  have hlen := congrArg String.length h
  simp only [String.length_append, length_repeated] at hlen
  exact Nat.eq_of_mul_eq_mul_right hmark (by omega)

theorem repeated_append_injective (name : String) {mark : String} (hmark : 0 < mark.length) :
    Function.Injective fun k => repeated k mark ++ name := by
  intro i j h
  have hlen := congrArg String.length h
  simp only [String.length_append, length_repeated] at hlen
  exact Nat.eq_of_mul_eq_mul_right hmark (by omega)

/-- Names joined by a character that is in none of them can be told apart again. -/
theorem splits_eq_of_intercalate_eq {c : Char} {names others : List String}
    (hnames : ∀ s ∈ names, c ∉ s.toList) (hothers : ∀ s ∈ others, c ∉ s.toList)
    (h : String.intercalate (String.singleton c) names =
      String.intercalate (String.singleton c) others) :
    (if names = [] then [""] else names) = if others = [] then [""] else others := by
  rw [← String.toList_split_intercalate hnames, ← String.toList_split_intercalate hothers]
  exact congrArg (fun s : String => (s.split c).toList.map (·.copy)) h

end Frontend
