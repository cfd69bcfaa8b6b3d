import AppearanceIndex.Files.Store
import AppearanceIndex.Ingest.Batch
import AppearanceIndex.Json.Record
import AppearanceIndex.Text.Utf8

/-!
# Where appearances go

An `AppearanceSink` takes batches in and is flushed when it has all batches of a chunk. A `RowSink`
adds one JSON row per appearance to the end of a file. Rows gather in a buffer, which is
written out when the next rows would not fit, or on a flush; many rows at once bypass it. The file
takes a write before its outcome is known: an error comes to light with the next write or the next
flush. After a flush that succeeds, all rows are in the file.
-/

namespace AppearanceIndex

class AppearanceSink (Sink : Type) where
  /-- Takes a batch in. -/
  insert : Sink → FileStore → AppearanceBatch → Except Failure Unit × Sink × FileStore
  /-- Called when all batches of a chunk were taken in. -/
  flush : Sink → FileStore → Except Failure Unit × Sink × FileStore

structure RowSink where
  place : Place
  /-- What is not written out yet. -/
  buffer : Bytes
  /-- The error of the last write, if it has not come to light yet. -/
  late : Option IoError

namespace RowSink

def bufferBytes : Nat := 8192

/-- How many bytes the file takes in one write. -/
def writeBytes : Nat := 2097152

def rows (batch : AppearanceBatch) : List Char :=
  batch.appearances.flatMap fun d => d.rowText batch.range ++ ['\n']

/-- Opens an appearance file, which begins as an empty file if there is none. -/
def openAt (files : FileStore) (path : Path) : Except Failure (RowSink × FileStore) := do
  let (place, files) ← (Activity.openSinkFile path.text).ofIo (files.openWrite path)
  return (⟨place, [], none⟩, files)

/-- Hands bytes to the file, unless the last write turns out to have failed. -/
def writeOut (s : RowSink) (files : FileStore) (bs : Bytes) :
    Except IoError Unit × RowSink × FileStore :=
  match s.late with
  | some e => (.error e, { s with late := none }, files)
  | none =>
    match files.append s.place bs with
    | (.ok (), files) => (.ok (), s, files)
    | (.error e, files) => (.ok (), { s with late := some e }, files)

def emptyBuffer (s : RowSink) (files : FileStore) : Except IoError Unit × RowSink × FileStore :=
  if s.buffer = [] then (.ok (), s, files)
  else
    match s.writeOut files s.buffer with
    | (.ok (), s, files) => (.ok (), { s with buffer := [] }, files)
    | failed => failed

/-- Writes the buffer out if so many more bytes would not fit. -/
def makeRoom (s : RowSink) (files : FileStore) (count : Nat) :
    Except IoError Unit × RowSink × FileStore :=
  if bufferBytes < s.buffer.length + count then s.emptyBuffer files else (.ok (), s, files)

/-- Takes bytes in, as many at a time as one write takes. -/
def writeAll (s : RowSink) (files : FileStore) (bs : Bytes) :
    Except IoError Unit × RowSink × FileStore :=
  if _h : bs = [] then (.ok (), s, files)
  else
    match s.makeRoom files bs.length with
    | (.error e, s, files) => (.error e, s, files)
    | (.ok (), s, files) =>
      if bs.length < bufferBytes then (.ok (), { s with buffer := s.buffer ++ bs }, files)
      else
        match s.writeOut files (bs.take writeBytes) with
        | (.error e, s, files) => (.error e, s, files)
        | (.ok (), s, files) => writeAll s files (bs.drop writeBytes)
termination_by bs.length
decreasing_by
  have : 0 < bs.length := List.length_pos_iff.mpr _h
  simp only [List.length_drop, writeBytes]
  omega

def insert (s : RowSink) (files : FileStore) (batch : AppearanceBatch) :
    Except Failure Unit × RowSink × FileStore :=
  let (result, s, files) := s.writeAll files (Utf8.encode (rows batch))
  (Activity.insertAppearances.ofIo result, s, files)

/-- Writes everything out and waits for the outcome. -/
def sync (s : RowSink) (files : FileStore) : Except IoError Unit × RowSink × FileStore :=
  match s.emptyBuffer files with
  | (.ok (), s, files) =>
    match s.late with
    | some e => (.error e, { s with late := none }, files)
    | none => (.ok (), s, files)
  | failed => failed

def flush (s : RowSink) (files : FileStore) : Except Failure Unit × RowSink × FileStore :=
  let (result, s, files) := s.sync files
  (Activity.flushSink.ofIo result, s, files)

instance : AppearanceSink RowSink := ⟨insert, flush⟩

end RowSink

end AppearanceIndex
