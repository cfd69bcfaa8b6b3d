import AppearanceIndex.Chunk.Record
import AppearanceIndex.Failure

/-!
# Batches of appearances

Appearances of one chunk travel in batches. The last batch of a chunk is marked, and may be empty.
A chunk is complete when as many appearances were decoded as its header declares.
-/

namespace AppearanceIndex

structure AppearanceBatch where
  range : BlockRange
  chunkName : String
  appearances : List DecodedAppearance
  lastInChunk : Bool

/-- Checks that as many appearances were decoded as were declared. -/
def validateDecodedCount (range : BlockRange) (declared decoded : Nat) : Except Failure Unit :=
  if declared = decoded then .ok ()
  else .error ⟨[], .countMismatch range declared decoded⟩

end AppearanceIndex
