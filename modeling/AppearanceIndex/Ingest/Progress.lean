/-!
# Progress

A count of the appearances that are done. It is a 64-bit counter and begins again at zero when it
overflows.
-/

namespace AppearanceIndex

structure Progress where
  done : UInt64
deriving DecidableEq

namespace Progress

def zero : Progress := ⟨0⟩

def add (p : Progress) (n : UInt64) : Progress := ⟨p.done + n⟩

end Progress

end AppearanceIndex
