import AppearanceIndex.Failure
import AppearanceIndex.Files.Store
import AppearanceIndex.Text.Utf8

/-!
# Status logs

A status log is a file to which one line is added for each finished chunk: the status, a tab and
the name of the chunk. Several logs may be open on one file; every line goes to its end.
-/

namespace AppearanceIndex

/-- How a chunk was finished. -/
inductive ChunkStatus where
  | done
  /-- The chunk could not be decoded. -/
  | error
  /-- The appearances of the chunk could not be written. -/
  | appearanceError
deriving DecidableEq

def ChunkStatus.text : ChunkStatus → String
  | done => "done"
  | error => "error"
  | appearanceError => "appearance-error"

/-- An open status log, known by the place of its file. -/
structure StatusLog where
  place : Place

namespace StatusLog

def line (status : ChunkStatus) (name : String) : List Char :=
  status.text.toList ++ '\t' :: name.toList ++ ['\n']

/-- Opens a log, which begins as an empty file if there is none. -/
def openAt (files : FileStore) (path : Path) : Except Failure (StatusLog × FileStore) := do
  let (place, files) ← Activity.openStatusFile.ofIo (files.openWrite path)
  return (⟨place⟩, files)

def record (log : StatusLog) (files : FileStore) (status : ChunkStatus) (name : String) :
    Except Failure Unit × FileStore :=
  let (result, files) := files.append log.place (Utf8.encode (line status name))
  (Activity.writeStatusLine.ofIo result, files)

end StatusLog

end AppearanceIndex
