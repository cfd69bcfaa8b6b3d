import AppearanceIndex.Chunk.Record
import AppearanceIndex.Decode.Shard
import AppearanceIndex.Failure
import AppearanceIndex.Source.Positional

/-!
# Shard workers

A worker reads the address records of its shard in one read, then the span of each record in turn,
and sends what it decodes to a bounded output. It looks at the cancellation token before its first
read and before each record, never while it is sending. A worker that fails first reports its error
and then cancels the token, so that whoever sees the token cancelled by a failure can find the
error. `WorkerPhase.next` is one atomic step.
-/

namespace AppearanceIndex

structure OpenChunk where
  source : PositionalSource
  range : BlockRange
  header : ChunkHeader

namespace OpenChunk

/-- Opens a source as the chunk of a range: parses the name, reads the header and checks it. -/
def openNamed (source : PositionalSource) (name : String) : Except Error OpenChunk := do
  let range ← BlockRange.ofName name
  let bs ← (source.read 0 ChunkHeader.width).mapError
    (.ofHeaderRead .chunk range .readChunkHeader)
  let header := ChunkHeader.ofBytes bs
  let size ← source.size.mapError (.io .measureChunk)
  header.validate range size
  return { source, range, header }

def readRecords (chunk : OpenChunk) (shard : Shard) : Except Failure (List AddressRecord) :=
  match chunk.source.read (AddressRecord.location chunk.header shard.start)
      (shard.length * ChunkHeader.addressRecordWidth) with
  | .ok bs => .ok (AddressRecord.decodeAll bs)
  | .error e =>
    .error ((Failure.ofError (.io .readAddressRecords e)).within
      (.decodeShard shard.start shard.stop chunk.range))

/-- Reads the span of a record, if it lies inside the appearance table. -/
def readSpan (chunk : OpenChunk) (shard : Shard) (record : AddressRecord) :
    Except Failure (List Appearance) :=
  if record.Fits chunk.header then
    match chunk.source.read (record.spanStart chunk.header) record.spanBytes with
    | .ok bs => .ok (Appearance.decodeAll bs)
    | .error e =>
      .error ((Failure.ofError (.io .readAppearances e)).within
        (.decodeAddress shard.start shard.stop chunk.range record.address))
  else
    .error ((Failure.ofError (record.spanError chunk.header chunk.range)).within
      (.decodeShard shard.start shard.stop chunk.range))

end OpenChunk

/-- What a worker is about to do. -/
inductive WorkerPhase where
  /-- To look at the token for the first time. -/
  | waiting
  /-- To read the records of its shard. -/
  | loading
  /-- To look at the token before the next of these records. -/
  | between (records : List AddressRecord)
  /-- To read the span of a record. -/
  | fetching (record : AddressRecord) (records : List AddressRecord)
  /-- To send the appearances of an address. -/
  | sending (address : Address) (appearances : List Appearance) (records : List AddressRecord)
  /-- To report an error. -/
  | failing (failure : Failure)
  /-- To cancel the token, its error being reported. -/
  | cancelling
  | ended

/-- What others see of a worker's step. -/
inductive WorkerEffect where
  | silent
  | send (decoded : DecodedAppearance)
  | report (failure : Failure)
  | cancel

/-- How the output answers an attempt to send. -/
inductive OutputRoom where
  | free
  | full
  /-- Nobody receives any more. -/
  | abandoned
deriving DecidableEq

namespace WorkerPhase

def isActive : WorkerPhase → Bool
  | ended => false
  | _ => true

/-- One step; none for a worker that has ended or waits for room in the output. -/
def next (chunk : OpenChunk) (shard : Shard) (cancelled : Bool) (room : OutputRoom) :
    WorkerPhase → Option (WorkerPhase × WorkerEffect)
  | waiting => some (if cancelled then ended else loading, .silent)
  | loading =>
    match chunk.readRecords shard with
    | .ok records => some (between records, .silent)
    | .error f => some (failing f, .silent)
  | between [] => some (ended, .silent)
  | between (record :: records) =>
    some (if cancelled then ended else fetching record records, .silent)
  | fetching record records =>
    match chunk.readSpan shard record with
    | .ok apps => some (sending record.address apps records, .silent)
    | .error f => some (failing f, .silent)
  | sending _ [] records => some (between records, .silent)
  | sending address (app :: apps) records =>
    match room with
    | .free => some (sending address apps records, .send ⟨address, app⟩)
    | .full => none
    | .abandoned => some (ended, .silent)
  | failing f => some (cancelling, .report f)
  | cancelling => some (ended, .cancel)
  | ended => none

end WorkerPhase

end AppearanceIndex
