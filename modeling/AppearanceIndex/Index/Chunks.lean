import AppearanceIndex.Index.Directory

/-!
# Lists of chunk files

`ChunkEntry.list` finds the chunk files of a directory, the newest range first. Only regular files
with the extension `bin` whose stem parses as a range are considered. A lower bound leaves out the
ranges that lie before it, an upper bound those that lie behind it.
-/

namespace AppearanceIndex

structure ChunkEntry where
  path : Path
  /-- The file name without its extension. -/
  name : String
  range : BlockRange
deriving DecidableEq

/-- The blocks that a run is interested in; none means no bound. -/
structure BlockWindow where
  first : Option UInt64
  last : Option UInt64
deriving DecidableEq

namespace BlockWindow

/-- The range lies neither before the first nor behind the last block. -/
def admits (w : BlockWindow) (range : BlockRange) : Bool :=
  !(w.first.any range.earlierThan) && !(w.last.any range.laterThan)

end BlockWindow

namespace ChunkEntry

/-- The chunk file that an entry of a directory is, if it is one inside the window. -/
def ofListed? (directory : Path) (window : BlockWindow) (entry : String × FileNode) :
    Option ChunkEntry := do
  let name ← IndexDirectory.stemOfFile? "bin" entry
  let range ← BlockRange.parse? name
  if window.admits range then some ⟨directory.entry entry.1, name, range⟩ else none

/-- Begins no earlier, or at the same block and ends no earlier. -/
def noOlder (a b : ChunkEntry) : Bool := (b.range.cmp a.range).isLE

/-- The chunk files among the entries of a directory, the newest range first. -/
def ofListing (directory : Path) (window : BlockWindow) (entries : List (String × FileNode)) :
    List ChunkEntry :=
  (entries.filterMap (ofListed? directory window)).mergeSort noOlder

def list (files : FileStore) (directory : Path) (window : BlockWindow) :
    Except Failure (List ChunkEntry) := do
  let entries ← Activity.readChunkDirectory.ofIo (files.readDirectory directory)
  return ofListing directory window entries

end ChunkEntry

end AppearanceIndex
