/-!
# Positive numbers

Worker limits, batch sizes and capacities are never zero.
-/

namespace AppearanceIndex

abbrev Positive := { n : Nat // 0 < n }

def Positive.ofNat? (n : Nat) : Option Positive :=
  if h : 0 < n then some ⟨n, h⟩ else none

end AppearanceIndex
