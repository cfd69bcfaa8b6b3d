import AppearanceIndex.Bloom.File
import AppearanceIndex.Chunk.File
import AppearanceIndex.Failure

/-!
# Sources of ranges

A `RangeSource` gives a scan the bloom files and the chunk files of one chain by name.
`RangeSource.mayContain` tests one bloom file and `RangeSource.extract` searches one chunk; both
tell in a failure what they were doing with which name.
-/

namespace AppearanceIndex

/-- Bloom files and chunk files by the names of their ranges. -/
structure RangeSource where
  /-- The names of all bloom files. -/
  names : Except Failure (List String)
  openBloom : String → Except Failure SeekableSource
  openChunk : String → Except Failure SeekableSource

namespace RangeSource

def mayContain (source : RangeSource) (address : Address) (name : String) :
    Except Failure Bool := do
  let reader ← (Activity.openBloom name).around (source.openBloom name)
  let opened := (BloomFile.openNamed reader name).run 0
  let bloom ← (Activity.readBloom name).ofIndex opened.1
  (Activity.testBloom name).ofIndex ((bloom.isMember address).run opened.2).1

def extract (source : RangeSource) (address : Address) (name : String) :
    Except Failure (List Appearance) := do
  let reader ← (Activity.openChunk name).around (source.openChunk name)
  let opened := (ChunkFile.openNamed reader name).run 0
  let chunk ← (Activity.readChunk name).ofIndex opened.1
  (Activity.searchChunk name).ofIndex ((chunk.getAppearances address).run opened.2).1

/-- The names among those listed that stand for a range. -/
def rangeNames (names : List String) : List String :=
  names.filter fun name => (BlockRange.parse? name).isSome

end RangeSource

end AppearanceIndex
