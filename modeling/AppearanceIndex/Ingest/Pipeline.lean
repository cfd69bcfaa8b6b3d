import AppearanceIndex.Decode.Stream
import AppearanceIndex.Index.Chunks
import AppearanceIndex.Ingest.Batch
import AppearanceIndex.Ingest.StatusLog

/-!
# The ingest pipeline

A producer lists the chunk files of a directory and decodes one after another, the newest first. It
collects appearances into batches and puts them into a queue that holds four; whoever takes them
out may be slower, and may go away. The first chunk that fails ends the production: its status line
is written, then its failure is put into the queue, and nothing follows.

`Ingest.step` performs one move of one participant: the producer, a decode worker, or the consumer.
-/

namespace AppearanceIndex

structure IngestSettings where
  maxWorkers : Positive
  batchSize : Positive
  channelCapacity : Positive
  window : BlockWindow

/-- What a consumer of an ingest takes out of the queue. -/
inductive Delivery where
  | batch (b : AppearanceBatch)
  | failure (f : Failure)

structure ChunkInProgress where
  chunk : ChunkEntry
  stream : DecodeStream
  /-- What belongs to the next batch, the newest first. -/
  collected : List DecodedAppearance
  /-- How many appearances were received. -/
  decoded : Nat

/-- What the producer is about to do. -/
inductive Producer where
  /-- To list the chunk files. -/
  | listing
  /-- To open the next of these chunks. -/
  | between (chunks : List ChunkEntry)
  /-- To receive from a decode stream. -/
  | decoding (work : ChunkInProgress) (chunks : List ChunkEntry)
  /-- To put a batch into the queue, with more of the chunk to come. -/
  | sending (batch : AppearanceBatch) (work : ChunkInProgress) (chunks : List ChunkEntry)
  /-- To put the last batch of a chunk into the queue. -/
  | completing (batch : AppearanceBatch) (chunks : List ChunkEntry)
  /-- To write the status line of a chunk that failed. -/
  | recording (chunk : ChunkEntry) (failure : Failure)
  /-- To put a failure into the queue. -/
  | failing (failure : Failure)
  | ended

structure Ingest where
  settings : IngestSettings
  directory : Path
  log : Option StatusLog
  producer : Producer
  /-- What was produced and not taken out yet, oldest first. -/
  queue : List Delivery
  /-- The consumer is gone. -/
  abandoned : Bool
  files : FileStore

inductive IngestMove where
  | produce
  /-- The decode under way makes a move that is not its consumer's. -/
  | decode (move : DecodeMove)
  /-- The consumer takes the oldest delivery out. -/
  | receive
  /-- The consumer goes away. -/
  | abandon

namespace ChunkInProgress

/-- The batch of what was collected. -/
def batch (work : ChunkInProgress) (last : Bool) : AppearanceBatch where
  range := work.chunk.range
  chunkName := work.chunk.name
  appearances := work.collected.reverse
  lastInChunk := last

/-- The bytes that one appearance takes in memory. -/
def appearanceBytes : Nat := 28

def maxBatchBytes : Nat := UInt64.size / 2 - 1

/-- Starts decoding a chunk file. An attempt that asks for more room than there can be dies
without a word. -/
def start (settings : IngestSettings) (files : FileStore) (chunk : ChunkEntry) : DecodeStart :=
  match Activity.openChunkFile.ofIo (files.contentOf chunk.path) with
  | .error f => .refused f
  | .ok bs =>
    match DecodeStart.ofSource (.ofBytes bs) chunk.name settings.maxWorkers
        settings.channelCapacity with
    | .refused f => .refused (f.within .startDecoding)
    | .aborted => .aborted
    | .started stream =>
      if maxBatchBytes < settings.batchSize.val * appearanceBytes then .aborted
      else .started stream

end ChunkInProgress

namespace Producer

def onReceived (batchSize : Nat) (work : ChunkInProgress) (chunks : List ChunkEntry) :
    Received → Producer
  | .appearance d =>
    let work :=
      { work with collected := d :: work.collected, decoded := work.decoded + 1 }
    if batchSize ≤ work.collected.length then
      sending (work.batch false) { work with collected := [] } chunks
    else decoding work chunks
  | .failure f => recording work.chunk f
  | .finished =>
    match validateDecodedCount work.chunk.range work.stream.chunk.header.appearanceCount.toNat
        work.decoded with
    | .ok () => completing (work.batch true) chunks
    | .error f => recording work.chunk f

def onNextChunk (settings : IngestSettings) (files : FileStore) :
    List ChunkEntry → Producer
  | [] => ended
  | chunk :: chunks =>
    match ChunkInProgress.start settings files chunk with
    | .refused f => recording chunk f
    | .aborted => ended
    | .started stream => decoding ⟨chunk, stream, [], 0⟩ chunks

end Producer

namespace Ingest

def queueCapacity : Nat := 4

def new (settings : IngestSettings) (directory : Path) (log : Option StatusLog)
    (files : FileStore) : Ingest where
  settings := settings
  directory := directory
  log := log
  producer := .listing
  queue := []
  abandoned := false
  files := files

/-- Puts a delivery into the queue and goes on, or ends because nobody takes it. -/
def deliver (s : Ingest) (delivery : Delivery) (next : Producer) : Option Ingest :=
  if s.abandoned then some { s with producer := .ended }
  else if s.queue.length < queueCapacity then
    some { s with queue := s.queue ++ [delivery], producer := next }
  else none

/-- Writes the status line of a chunk that failed. A line that cannot be written is then the
failure. -/
def recordFailure (s : Ingest) (chunk : ChunkEntry) (f : Failure) : Ingest :=
  match s.log with
  | none => { s with producer := .failing (f.within (.decodeChunk chunk.path.text)) }
  | some log =>
    match log.record s.files .error chunk.name with
    | (.ok (), files) =>
      { s with files, producer := .failing (f.within (.decodeChunk chunk.path.text)) }
    | (.error g, files) => { s with files, producer := .failing (g.within .recordStatus) }

def listChunks (s : Ingest) : Ingest :=
  match (Activity.listChunks s.directory.text).around
      (ChunkEntry.list s.files s.directory s.settings.window) with
  | .ok chunks => { s with producer := .between chunks }
  | .error f => { s with producer := .failing f }

/-- The producer goes on with a chunk after the consumer's part of its decode stream moved. -/
def afterReceive (s : Ingest) (work : ChunkInProgress) (chunks : List ChunkEntry) :
    Option Received × DecodeStream → Ingest
  | (none, stream) => { s with producer := .decoding { work with stream } chunks }
  | (some received, stream) =>
    { s with
      producer :=
        .onReceived s.settings.batchSize.val { work with stream } chunks received }

/-- What the producer does when it is not receiving from a decode stream. -/
def produceOther (s : Ingest) : Option Ingest :=
  match s.producer with
  | .listing => some s.listChunks
  | .between chunks =>
    some { s with producer := .onNextChunk s.settings s.files chunks }
  | .sending batch work chunks => s.deliver (.batch batch) (.decoding work chunks)
  | .completing batch chunks => s.deliver (.batch batch) (.between chunks)
  | .recording chunk f => some (s.recordFailure chunk f)
  | .failing f => s.deliver (.failure f) .ended
  | .decoding .. | .ended => none

/-- The producer's move; it looks at the errors of a decode first, then at its output. -/
def produce (s : Ingest) : Option Ingest :=
  match s.producer with
  | .decoding work chunks =>
    (work.stream.step (if work.stream.checked then .take else .poll)).map
      (s.afterReceive work chunks)
  | _ => s.produceOther

def decodeMove (s : Ingest) (move : DecodeMove) : Option Ingest :=
  match s.producer, move with
  | .decoding work chunks, .work i =>
    (work.stream.work i).map fun stream =>
      { s with producer := .decoding { work with stream } chunks }
  | .decoding work chunks, .close =>
    (work.stream.step .close).map fun (_, stream) =>
      { s with producer := .decoding { work with stream } chunks }
  | .sending batch work chunks, .work i =>
    (work.stream.work i).map fun stream =>
      { s with producer := .sending batch { work with stream } chunks }
  | .sending batch work chunks, .close =>
    (work.stream.step .close).map fun (_, stream) =>
      { s with producer := .sending batch { work with stream } chunks }
  | _, _ => none

/-- One move, with what the consumer takes out in it; none if the move is not possible now. -/
def step (s : Ingest) : IngestMove → Option (Option Delivery × Ingest)
  | .produce => s.produce.map fun s => (none, s)
  | .decode move => (s.decodeMove move).map fun s => (none, s)
  | .receive =>
    match s.abandoned, s.queue with
    | false, delivery :: queue => some (some delivery, { s with queue })
    | _, _ => none
  | .abandon => some (none, { s with abandoned := true, queue := [] })

end Ingest

end AppearanceIndex
