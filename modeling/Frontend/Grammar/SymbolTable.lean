/-!
# Symbol tables

A symbol table numbers names in order of first occurrence. A name that is in the table keeps its
number, and no number is given up again.
-/

namespace Frontend

/-- Names, each once. The number of a name is its place, counted from zero. -/
structure SymbolTable where
  toList : List String
  nodup : toList.Nodup

namespace SymbolTable

/-- The table without names. -/
def empty : SymbolTable := ⟨[], List.nodup_nil⟩

instance : EmptyCollection SymbolTable := ⟨empty⟩

/-- Puts a new name at the end of the table. -/
def concat (t : SymbolTable) (name : String) (h : name ∉ t.toList) : SymbolTable where
  toList := t.toList ++ [name]
  nodup := by
    refine List.nodup_append.2 ⟨t.nodup, by simp, fun a ha b hb heq => ?_⟩
    rw [heq, List.mem_singleton.1 hb] at ha
    exact h ha

/-- The number of a name, which is put into the table if it is new. -/
def add (t : SymbolTable) (name : String) : SymbolTable × Nat :=
  if h : name ∈ t.toList then (t, t.toList.idxOf name)
  else (t.concat name h, t.toList.length)

/-- The name that has a number. -/
def name? (t : SymbolTable) (n : Nat) : Option String := t.toList[n]?

/-- The name that has a number; a number that is not in use has the empty name. -/
def nameOf (t : SymbolTable) (n : Nat) : String := (t.name? n).getD ""

end SymbolTable

end Frontend
