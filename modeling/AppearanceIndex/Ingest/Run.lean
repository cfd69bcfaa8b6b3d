import AppearanceIndex.Ingest.Receive
import AppearanceIndex.Ingest.Sink

/-!
# Ingest runs

A run takes the deliveries of an ingest and gives their appearances to a sink. When the last batch
of a chunk is in, the sink is flushed, and only then does the status log say that the chunk is done.
The first failure ends the run: one of decoding is passed on, one of writing is recorded for its
chunk first.

`IngestRun.step` performs one move of one participant, `IngestRun.finish` lets the ingest go as far
ahead as its queue allows and otherwise the writer, until the run returns.
-/

namespace AppearanceIndex

/-- What the writer is about to do. -/
inductive Writer where
  /-- To take a delivery. -/
  | receiving
  | inserting (batch : AppearanceBatch)
  /-- To flush the sink behind the last batch of a chunk. -/
  | flushing (batch : AppearanceBatch)
  /-- To record that a chunk is done. -/
  | marking (batch : AppearanceBatch)
  /-- To record that the appearances of a chunk could not be written. -/
  | rejecting (batch : AppearanceBatch) (failure : Failure)
  | returned (result : Except Failure Unit)

/-- How many moves the writer makes at most with what it has in hand. -/
def Writer.rank : Writer → Nat
  | receiving => 1
  | inserting _ => 4
  | flushing _ => 3
  | marking _ => 2
  | rejecting .. => 2
  | returned _ => 0

/-- A run under way. Everything that it wrote is in the files of its ingest. -/
structure IngestRun (Sink : Type) where
  ingest : Ingest
  sink : Sink
  writer : Writer

inductive RunMove where
  | write
  /-- The ingest moves, other than by its consumer. -/
  | ingest (move : IngestMove)

namespace IngestRun

variable {Sink : Type}

def start (settings : IngestSettings) (directory : Path) (log : Option StatusLog)
    (files : FileStore) (sink : Sink) : IngestRun Sink where
  ingest := .new settings directory log files
  sink := sink
  writer := .receiving

/-- The writer returns; nobody takes deliveries any more. -/
def returnWith (r : IngestRun Sink) (result : Except Failure Unit) : IngestRun Sink :=
  { r with
    ingest := { r.ingest with abandoned := true, queue := [] }
    writer := .returned result }

/-- Records the status of a chunk, if there is a log. -/
def record (r : IngestRun Sink) (status : ChunkStatus) (name : String) :
    Except Failure Unit × IngestRun Sink :=
  match r.ingest.log with
  | none => (.ok (), r)
  | some log =>
    let (result, files) := log.record r.ingest.files status name
    (Activity.recordStatus.around result, { r with ingest := { r.ingest with files } })

def onDelivery (r : IngestRun Sink) : Option Delivery → IngestRun Sink
  | some (.batch batch) => { r with writer := .inserting batch }
  | some (.failure f) => r.returnWith (.error (f.within .decodeChunks))
  | none => r.returnWith (.ok ())

def afterWrite (r : IngestRun Sink) (batch : AppearanceBatch) (next : Writer)
    (outcome : Except Failure Unit × Sink × FileStore) : IngestRun Sink :=
  { ingest := { r.ingest with files := outcome.2.2 }
    sink := outcome.2.1
    writer :=
      match outcome.1 with
      | .ok () => next
      | .error f => .rejecting batch f }

/-- What a run still has to do: first what its ingest has to do, then what its writer has. -/
def measure (r : IngestRun Sink) : (Nat × Nat × Nat) × Nat := (r.ingest.measure, r.writer.rank)

def Below : (Nat × Nat × Nat) × Nat → (Nat × Nat × Nat) × Nat → Prop :=
  Prod.Lex Ingest.Below (· < ·)

theorem below_of_rank {r t : IngestRun Sink} (hp : t.ingest.producer = r.ingest.producer)
    (hq : t.ingest.queue.length ≤ r.ingest.queue.length) (h : t.writer.rank < r.writer.rank) :
    Below t.measure r.measure := by
  rcases Nat.lt_or_eq_of_le hq with hlt | heq
  · refine Prod.Lex.left _ _ (Ingest.below_weight ?_ ?_ ?_) <;>
      simp only [Ingest.measure, hp]
    omega
  · have hm : t.ingest.measure = r.ingest.measure := by simp only [Ingest.measure, hp, heq]
    simp only [measure, hm]
    exact Prod.Lex.right _ h

theorem ingest_record (r : IngestRun Sink) (status : ChunkStatus) (name : String) :
    (r.record status name).2.ingest.producer = r.ingest.producer ∧
      (r.record status name).2.ingest.queue = r.ingest.queue := by
  simp only [record]
  split <;> exact ⟨rfl, rfl⟩

theorem below_returnWith {r t : IngestRun Sink} (result : Except Failure Unit)
    (hp : t.ingest.producer = r.ingest.producer) (h : 0 < r.writer.rank) :
    Below (t.returnWith result).measure r.measure :=
  below_of_rank hp (Nat.zero_le _) h

theorem below_afterWrite {r : IngestRun Sink} {batch : AppearanceBatch} {next : Writer}
    (outcome : Except Failure Unit × Sink × FileStore) (h : next.rank < r.writer.rank)
    (h' : 2 < r.writer.rank) : Below (r.afterWrite batch next outcome).measure r.measure := by
  refine below_of_rank rfl (Nat.le_refl _) ?_
  simp only [afterWrite]
  split
  · exact h
  · exact h'

theorem below_onDelivery {r : IngestRun Sink} {ingest : Ingest} {delivery : Delivery}
    (h : Ingest.Below ingest.measure r.ingest.measure) :
    Below ({ r with ingest }.onDelivery (some delivery)).measure r.measure := by
  cases delivery with
  | batch b => exact Prod.Lex.left _ _ h
  | failure f =>
    refine Prod.Lex.left _ _ ?_
    simp only [Ingest.Below, Ingest.measure, Prod.lex_def] at h ⊢
    simp only [onDelivery, returnWith, List.length_nil]
    omega

variable [AppearanceSink Sink]

/-- What the writer does with what it has in hand; none if it has nothing, or has returned. -/
def writeOn (r : IngestRun Sink) : Option (IngestRun Sink) :=
  match r.writer with
  | .receiving => none
  | .inserting batch =>
    some (r.afterWrite batch (if batch.lastInChunk then .flushing batch else .receiving)
      (AppearanceSink.insert r.sink r.ingest.files batch))
  | .flushing batch =>
    some (r.afterWrite batch (.marking batch) (AppearanceSink.flush r.sink r.ingest.files))
  | .marking batch =>
    match r.record .done batch.chunkName with
    | (.ok (), r) => some { r with writer := .receiving }
    | (.error f, r) => some (r.returnWith (.error f))
  | .rejecting batch f =>
    match r.record .appearanceError batch.chunkName with
    | (.ok (), r) => some (r.returnWith (.error (f.within (.writeAppearances batch.chunkName))))
    | (.error g, r) => some (r.returnWith (.error g))
  | .returned _ => none

/-- The writer's move; it takes a delivery when it has none in hand. -/
def write (r : IngestRun Sink) : Option (IngestRun Sink) :=
  match r.writer with
  | .receiving =>
    match r.ingest.takeDelivery, r.ingest.producer with
    | some (delivery, ingest), _ => some ({ r with ingest }.onDelivery (some delivery))
    | none, .ended => some (r.onDelivery none)
    | none, _ => none
  | _ => r.writeOn

def step (r : IngestRun Sink) : RunMove → Option (IngestRun Sink)
  | .write => r.write
  | .ingest .produce => r.ingest.produce.map fun ingest => { r with ingest }
  | .ingest (.decode move) => (r.ingest.decodeMove move).map fun ingest => { r with ingest }
  | .ingest _ => none

/-- The turn of the ingest, or else that of the writer. -/
def advance (r : IngestRun Sink) : Option (IngestRun Sink) :=
  match r.ingest.advance with
  | some ingest => some { r with ingest }
  | none => r.write

theorem below_writeOn {r t : IngestRun Sink} (h : r.writeOn = some t) :
    Below t.measure r.measure := by
  simp only [writeOn] at h
  split at h
  · cases h
  · next batch hw =>
    cases h
    refine below_afterWrite _ ?_ (by simp [hw, Writer.rank])
    split <;> simp [hw, Writer.rank]
  · next batch hw =>
    cases h
    exact below_afterWrite _ (by simp [hw, Writer.rank]) (by simp [hw, Writer.rank])
  · next batch hw =>
    have hi := r.ingest_record .done batch.chunkName
    split at h
    · next u hr =>
      cases h
      rw [hr] at hi
      exact below_of_rank hi.1 (Nat.le_of_eq (by rw [hi.2])) (by simp [hw, Writer.rank])
    · next f u hr =>
      cases h
      rw [hr] at hi
      exact below_returnWith _ hi.1 (by simp [hw, Writer.rank])
  · next batch f hw =>
    have hi := r.ingest_record .appearanceError batch.chunkName
    split at h
    · next u hr =>
      cases h
      rw [hr] at hi
      exact below_returnWith _ hi.1 (by simp [hw, Writer.rank])
    · next g u hr =>
      cases h
      rw [hr] at hi
      exact below_returnWith _ hi.1 (by simp [hw, Writer.rank])
  · cases h

theorem below_write {r t : IngestRun Sink} (h : r.write = some t) : Below t.measure r.measure := by
  simp only [write] at h
  split at h
  · next hw =>
    split at h
    · next hd => cases h; exact below_onDelivery (Ingest.below_takeDelivery hd)
    · cases h; exact below_returnWith _ rfl (by simp [hw, Writer.rank])
    · cases h
  · exact below_writeOn h

theorem below_advance {r t : IngestRun Sink} (h : r.advance = some t) :
    Below t.measure r.measure := by
  simp only [advance] at h
  split at h
  · next hi => cases h; exact Prod.Lex.left _ _ (Ingest.below_advance hi)
  · exact below_write h

def result? (r : IngestRun Sink) : Option (Except Failure Unit) :=
  match r.writer with
  | .returned result => some result
  | _ => none

/-- Runs until the writer returns, the ingest moving first. -/
def finish (r : IngestRun Sink) : Except Failure Unit × FileStore :=
  match r.result? with
  | some result => (result, r.ingest.files)
  | none =>
    match _h : r.advance with
    | some r => finish r
    | none => (.ok (), r.ingest.files)
termination_by r.measure
decreasing_by exact below_advance _h

end IngestRun

end AppearanceIndex
