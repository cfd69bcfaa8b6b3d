import AppearanceIndex.Decode.Worker
import AppearanceIndex.Positive

/-!
# Decode streams

A `DecodeStream` is one decode under way: the workers of all shards, the bounded output that they
share, the queue of reported errors, the cancellation token, and a consumer. The output is closed
when every worker has ended, so an error is queued before the end can be seen. A consumer looks at
the errors first and takes from the output only when it found none.

`DecodeStream.step` performs one move of one participant. Any sequence of moves is a possible
course of events; `Decode/Receive.lean` picks one.
-/

namespace AppearanceIndex

structure Worker where
  shard : Shard
  phase : WorkerPhase

/-- An appearance in the output and the number of the worker that sent it. -/
structure Sent where
  worker : Nat
  decoded : DecodedAppearance

inductive Received where
  | appearance (decoded : DecodedAppearance)
  | failure (f : Failure)
  /-- There is nothing more to receive. -/
  | finished
deriving DecidableEq

structure DecodeStream where
  chunk : OpenChunk
  capacity : Positive
  workers : List Worker
  /-- The bounded output, oldest first. -/
  output : List Sent
  /-- Reported errors, oldest first. -/
  errors : List Failure
  /-- The token is cancelled. -/
  cancelled : Bool
  /-- Nothing will be added to the output. -/
  closed : Bool
  /-- The consumer is gone. -/
  abandoned : Bool
  /-- The consumer receives no more and only waits for the workers to run out. -/
  draining : Bool
  /-- The consumer has received an error or the end. -/
  finished : Bool
  /-- The consumer has just found no error. -/
  checked : Bool

inductive DecodeMove where
  /-- A worker makes a step. -/
  | work (worker : Nat)
  /-- The output is closed behind the last worker. -/
  | close
  /-- The consumer looks at the reported errors. -/
  | poll
  /-- The consumer, having found no error, turns to the output. -/
  | take
  /-- Somebody cancels the token. -/
  | cancel
  /-- The consumer stops receiving, to let the workers run out. -/
  | drain
  /-- A draining consumer throws an appearance away. -/
  | discard
  /-- The consumer goes away. -/
  | abandon
deriving DecidableEq

namespace DecodeStream

/-- The stream over an admitted chunk, with a worker for each shard. -/
def ofChunk (chunk : OpenChunk) (maxWorkers capacity : Positive) : DecodeStream where
  chunk := chunk
  capacity := capacity
  workers :=
    (planShards chunk.header.addressCount.toNat maxWorkers.val).map fun shard => ⟨shard, .waiting⟩
  output := []
  errors := []
  cancelled := false
  closed := false
  abandoned := false
  draining := false
  finished := false
  checked := false

/-- How the output answers a worker now. -/
def room (s : DecodeStream) : OutputRoom :=
  if s.abandoned then .abandoned
  else if s.output.length < s.capacity.val then .free
  else .full

/-- What a worker's step changes for the others. -/
def withEffect (s : DecodeStream) (worker : Nat) : WorkerEffect → DecodeStream
  | .silent => s
  | .send decoded => { s with output := s.output ++ [⟨worker, decoded⟩] }
  | .report f => { s with errors := s.errors ++ [f] }
  | .cancel => { s with cancelled := true }

def work (s : DecodeStream) (i : Nat) : Option DecodeStream :=
  match s.workers[i]? with
  | none => none
  | some worker =>
    match worker.phase.next s.chunk worker.shard s.cancelled s.room with
    | none => none
    | some (phase, effect) =>
      some ({ s with workers := s.workers.set i { worker with phase } }.withEffect i effect)

def allEnded (s : DecodeStream) : Bool := s.workers.all (!·.phase.isActive)

/-- The consumer may still ask for more. -/
def isReceiving (s : DecodeStream) : Bool := !s.abandoned && !s.draining

/-- The consumer looks at the errors. -/
def poll (s : DecodeStream) : Option Received × DecodeStream :=
  if s.finished then (some .finished, s)
  else
    match s.errors with
    | f :: errors =>
      (some (.failure f), { s with errors, finished := true, cancelled := true })
    | [] => (none, { s with checked := true })

/-- The consumer meets the end of the output: an error that is still queued comes first, then the
cancellation, then the proper end. -/
def finish (s : DecodeStream) : Received × DecodeStream :=
  match s.errors with
  | f :: errors => (.failure f, { s with errors, finished := true, cancelled := true })
  | [] =>
    if s.cancelled then (.failure (.ofError .cancelled), { s with finished := true })
    else (.finished, { s with finished := true })

/-- The consumer turns to the output; nothing is received while it is empty and open. -/
def take (s : DecodeStream) : Option Received × DecodeStream :=
  match s.output with
  | sent :: output => (some (.appearance sent.decoded), { s with output, checked := false })
  | [] =>
    if s.closed then
      let (received, s) := s.finish
      (some received, s)
    else (none, { s with checked := false })

def cancel (s : DecodeStream) : DecodeStream := { s with cancelled := true }

/-- One move, with what the consumer receives in it; none if the move is not possible now. -/
def step (s : DecodeStream) : DecodeMove → Option (Option Received × DecodeStream)
  | .work i => (s.work i).map fun s => (none, s)
  | .close => if s.allEnded && !s.closed then some (none, { s with closed := true }) else none
  | .poll => if s.isReceiving then some s.poll else none
  | .take => if s.isReceiving && s.checked && !s.finished then some s.take else none
  | .cancel => some (none, s.cancel)
  | .drain =>
    if s.isReceiving then some (none, { s with draining := true, cancelled := true }) else none
  | .discard =>
    match s.draining, s.output with
    | true, _ :: output => some (none, { s with output })
    | _, _ => none
  | .abandon => some (none, { s with abandoned := true, cancelled := true, output := [] })

end DecodeStream

inductive DecodeStart where
  /-- The chunk was not admitted. -/
  | refused (f : Failure)
  /-- The output cannot be as large as was asked for: the attempt dies without a word. -/
  | aborted
  | started (s : DecodeStream)

namespace DecodeStart

def maxCapacity : Nat := UInt64.size / 8 - 1

def ofSource (source : PositionalSource) (name : String) (maxWorkers capacity : Positive) :
    DecodeStart :=
  match OpenChunk.openNamed source name with
  | .error e => refused (.ofError e)
  | .ok chunk =>
    if maxCapacity < capacity.val then aborted
    else started (.ofChunk chunk maxWorkers capacity)

end DecodeStart

end AppearanceIndex
