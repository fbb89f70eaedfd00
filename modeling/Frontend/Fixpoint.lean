/-!
# Iteration to a fixed point

`stabilize` applies a function until nothing changes. Where every change adds something to
sets that can hold no more than `bound` elements together, `bound` rounds suffice.
-/

namespace Frontend

/-- Applies `f` until the state is stable, at most `bound` times. -/
def stabilize [DecidableEq σ] (f : σ → σ) : Nat → σ → σ
  | 0, s => s
  | bound + 1, s =>
    let next := f s
    if next = s then s else stabilize f bound next

end Frontend
