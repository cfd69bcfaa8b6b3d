import AppearanceIndex.Bloom.Builder
import AppearanceIndex.Failure
import AppearanceIndex.Files.Store
import AppearanceIndex.Scan.Source

/-!
# Index directories

An index keeps the bloom files of a chain in `<chain>/blooms` and its chunk files in
`<chain>/finalized`, each named for its range. The operations here find them, open them and write
them; whatever else lies in those directories is left alone.
-/

namespace AppearanceIndex

structure IndexDirectory where
  path : Path

namespace IndexDirectory

def bloomDirectory (d : IndexDirectory) (chain : String) : Path :=
  (d.path.entry chain).entry "blooms"

def chunkDirectory (d : IndexDirectory) (chain : String) : Path :=
  (d.path.entry chain).entry "finalized"

/-- The stem of an entry that is a regular file with the given extension. -/
def stemOfFile? (extension : String) : String × FileNode → Option String
  | (name, .file ..) => FileName.stemIf? extension name
  | _ => none

/-- The stems of the bloom files of a chain, in ascending order. -/
def bloomNames (d : IndexDirectory) (files : FileStore) (chain : String) :
    Except Failure (List String) := do
  let directory := d.bloomDirectory chain
  let entries ← (Activity.readBloomDirectory directory.text).ofIo (files.readDirectory directory)
  return (entries.filterMap (stemOfFile? "bloom")).mergeSort (fun a b => a ≤ b)

def bloomPath (d : IndexDirectory) (chain name : String) : Path :=
  (d.bloomDirectory chain).entry (name ++ ".bloom")

def chunkPath (d : IndexDirectory) (chain name : String) : Path :=
  (d.chunkDirectory chain).entry (name ++ ".bin")

def sourceOf : OpenedFile → SeekableSource
  | .content bs => SeekableSource.ofBytes bs
  | .directory => SeekableSource.refusing .isDirectory

def openBloom (files : FileStore) (path : Path) : Except Failure OpenedFile :=
  (Activity.openBloomFile path.text).ofIo (files.openRead path)

def openChunk (d : IndexDirectory) (files : FileStore) (chain name : String) :
    Except Failure OpenedFile :=
  (Activity.openChunkPath (d.chunkPath chain name).text).ofIo
    (files.openRead (d.chunkPath chain name))

def source (d : IndexDirectory) (files : FileStore) (chain : String) : RangeSource where
  names := d.bloomNames files chain
  openBloom name := (openBloom files (d.bloomPath chain name)).map sourceOf
  openChunk name := (d.openChunk files chain name).map sourceOf

/-- Writes a chunk and its bloom filter under the name of their range. -/
def writeRange (d : IndexDirectory) (files : FileStore) (chain : String) (range : BlockRange)
    (chunk : ChunkBuilder) : Except IoError FileStore := do
  let files ← files.createDirectories (d.bloomDirectory chain)
  let files ← files.write (d.bloomPath chain range.fileStem) chunk.bloom.build
  let files ← files.createDirectories (d.chunkDirectory chain)
  files.write (d.chunkPath chain range.fileStem) chunk.build

end IndexDirectory

end AppearanceIndex
