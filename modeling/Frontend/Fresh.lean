/-!
# Fresh names

A fresh name is the first of a sequence of candidates that is not taken. Among one more
candidate than there are taken names, all different, one is free; so the search needs no
more tries than that.
-/

namespace Frontend

/-- The first free candidate from the `k`-th on, looking at no more than `tries` of them
before the next is taken unseen. -/
def freshFrom (taken : List String) (candidate : Nat → String) : Nat → Nat → String
  | 0, k => candidate k
  | tries + 1, k =>
    if candidate k ∈ taken then freshFrom taken candidate tries (k + 1) else candidate k

/-- The first of `candidate 0`, `candidate 1`, … that is not taken. -/
def fresh (taken : List String) (candidate : Nat → String) : String :=
  freshFrom taken candidate taken.length 0

/-- `text` written `n` times in a row. -/
def repeated (n : Nat) (text : String) : String := String.join (List.replicate n text)

end Frontend
