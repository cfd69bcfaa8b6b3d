/-!
# Binary search

`lowerBound` narrows a window of positions by halves, asking at each probe whether the wanted
position is at or before it. The probe runs in any monad, so that it may read a source, fail, or
count. No probe is made outside the window, whatever the answers are.
-/

namespace AppearanceIndex

/-- The first position in `[low, high)` at which `atOrAfter` holds, or `high`, when the positions
at which it holds are the last ones. -/
def lowerBound {m : Type → Type} [Monad m] (atOrAfter : Nat → m Bool) (low high : Nat) : m Nat :=
  if _h : low < high then do
    let middle := low + (high - low) / 2
    if ← atOrAfter middle then lowerBound atOrAfter low middle
    else lowerBound atOrAfter (middle + 1) high
  else
    pure low
termination_by high - low
decreasing_by all_goals omega

end AppearanceIndex
