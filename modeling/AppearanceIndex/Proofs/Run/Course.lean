import AppearanceIndex.Ingest.Run
import AppearanceIndex.Proofs.Ingest.Trace
import AppearanceIndex.Proofs.Trail

/-!
# What a run shows

Two things of a run into a sink can be seen from outside: the deliveries that the writer takes from
the ingest, and the lines that either of the two gets into the status log. `IngestRun.shown` moves
as the run does and gives them out, so that a trail of it tells when each was.
`IngestRun.Transition` lists what one move can do.
-/

namespace AppearanceIndex

structure StatusLine where
  status : ChunkStatus
  name : String
deriving DecidableEq

inductive RunOutput where
  | line (line : StatusLine)
  /-- The writer took this from the ingest. -/
  | taken (delivery : Delivery)

namespace RunOutput

def line? : RunOutput → Option StatusLine
  | .line written => some written
  | .taken _ => none

def delivery? : RunOutput → Option Delivery
  | .line _ => none
  | .taken delivery => some delivery

end RunOutput

def StatusLog.takes (log : StatusLog) (files : FileStore) (line : StatusLine) : Bool :=
  match log.record files line.status line.name with
  | (.ok (), _) => true
  | (.error _, _) => false

theorem StatusLog.takes_iff {log : StatusLog} {files : FileStore} {line : StatusLine} :
    log.takes files line = true ↔ (log.record files line.status line.name).1 = .ok () := by
  unfold StatusLog.takes
  split <;> next h => simp [h]

namespace IngestRun

variable {Sink : Type}

/-- The line, if there is a log that takes it. -/
def written? (r : IngestRun Sink) (line : StatusLine) : Option RunOutput :=
  match r.ingest.log with
  | none => none
  | some log => if log.takes r.ingest.files line then some (.line line) else none

/-- What is seen of a move that can be made. -/
def output? (r : IngestRun Sink) : RunMove → Option RunOutput
  | .write =>
    match r.writer with
    | .receiving => r.ingest.queue.head?.map .taken
    | .marking batch => r.written? ⟨.done, batch.chunkName⟩
    | .rejecting batch _ => r.written? ⟨.appearanceError, batch.chunkName⟩
    | _ => none
  | .ingest .produce =>
    match r.ingest.producer with
    | .recording chunk _ => r.written? ⟨.error, chunk.name⟩
    | _ => none
  | .ingest _ => none

abbrev Event (Sink : Type) := AppearanceIndex.Event (IngestRun Sink) RunMove RunOutput

/-- The line in what is seen of a move, if there is one. -/
def linesIn (output : Option RunOutput) : List StatusLine := (output.bind RunOutput.line?).toList

/-- The delivery in what is seen of a move, if there is one. -/
def takenIn (output : Option RunOutput) : List Delivery :=
  (output.bind RunOutput.delivery?).toList

@[simp] theorem linesIn_none : linesIn none = [] := rfl

@[simp] theorem takenIn_none : takenIn none = [] := rfl

@[simp] theorem linesIn_line (line : StatusLine) : linesIn (some (.line line)) = [line] := rfl

@[simp] theorem linesIn_taken (delivery : Delivery) : linesIn (some (.taken delivery)) = [] := rfl

@[simp] theorem takenIn_taken (delivery : Delivery) :
    takenIn (some (.taken delivery)) = [delivery] := rfl

/-- The lines that got into the log, oldest first. -/
def lines (events : List (Event Sink)) : List StatusLine :=
  (Trail.outputs events).filterMap RunOutput.line?

/-- The deliveries that the writer took, oldest first. -/
def deliveries (events : List (Event Sink)) : List Delivery :=
  (Trail.outputs events).filterMap RunOutput.delivery?

@[simp] theorem lines_nil : lines ([] : List (Event Sink)) = [] := rfl

@[simp] theorem deliveries_nil : deliveries ([] : List (Event Sink)) = [] := rfl

@[simp] theorem lines_append (events more : List (Event Sink)) :
    lines (events ++ more) = lines events ++ lines more := by
  simp [lines]

@[simp] theorem deliveries_append (events more : List (Event Sink)) :
    deliveries (events ++ more) = deliveries events ++ deliveries more := by
  simp [deliveries]

@[simp] theorem lines_single (e : Event Sink) : lines [e] = linesIn e.output := by
  rw [lines, Trail.outputs_single]
  cases e.output with
  | none => rfl
  | some output => cases output <;> rfl

@[simp] theorem deliveries_single (e : Event Sink) : deliveries [e] = takenIn e.output := by
  rw [deliveries, Trail.outputs_single]
  cases e.output with
  | none => rfl
  | some output => cases output <;> rfl

/-! ## Records -/

variable {r t : IngestRun Sink} {line : StatusLine} {status : ChunkStatus} {name : String}

theorem written?_eq (r : IngestRun Sink) (line : StatusLine) :
    r.written? line = none ∨ r.written? line = some (.line line) := by
  unfold written?
  split
  · exact .inl rfl
  · split
    · exact .inr rfl
    · exact .inl rfl

@[simp] theorem takenIn_written? (r : IngestRun Sink) (line : StatusLine) :
    takenIn (r.written? line) = [] := by
  rcases r.written?_eq line with hout | hout <;> rw [hout] <;> rfl

theorem eq_of_mem_linesIn_written? {other : StatusLine} (h : other ∈ linesIn (r.written? line)) :
    other = line := by
  rcases r.written?_eq line with hout | hout <;> rw [hout] at h
  · cases h
  · exact List.mem_singleton.mp h

theorem result?_eq_some {result : Except Failure Unit} :
    r.result? = some result ↔ r.writer = .returned result := by
  unfold result?
  cases r.writer <;> simp

/-- A record changes files at most. -/
theorem record_frame (r : IngestRun Sink) (status : ChunkStatus) (name : String) :
    ∃ files, (r.record status name).2 = { r with ingest := { r.ingest with files } } := by
  unfold record
  split <;> exact ⟨_, rfl⟩

/-- A record that fails has not got its line into the log, and tells of that. -/
theorem written?_of_record_error {f : Failure} (h : r.record status name = (.error f, t)) :
    r.written? ⟨status, name⟩ = none ∧ ∃ g : Failure, f = g.within .recordStatus := by
  cases hl : r.ingest.log with
  | none =>
    simp only [record, hl] at h
    cases h
  | some log =>
    simp only [record, hl, Prod.mk.injEq] at h
    cases hrecord : log.record r.ingest.files status name with
    | mk outcome files =>
      rw [hrecord] at h
      cases outcome with
      | ok _ => cases h.1
      | error g =>
        cases h.1
        refine ⟨?_, g, rfl⟩
        simp only [written?, hl, StatusLog.takes, hrecord, Bool.false_eq_true, if_false]

variable [AppearanceSink Sink]

/-- The run's move, with what is seen of it. -/
def shown (r : IngestRun Sink) (move : RunMove) : Option (Option RunOutput × IngestRun Sink) :=
  (r.step move).map fun t => (r.output? move, t)

inductive Transition (r : IngestRun Sink) :
    RunMove → Option RunOutput → IngestRun Sink → Prop where
  /-- The ingest moves, and no status line is due. -/
  | ingest {move : IngestMove} {ingest : Ingest}
      (hm : move ≠ .receive ∧ move ≠ .abandon)
      (hn : ∀ chunk f, move = .produce → r.ingest.producer ≠ .recording chunk f)
      (h : r.ingest.Transition move none ingest) :
      Transition r (.ingest move) none { r with ingest }
  | recordError {chunk : ChunkEntry} {f : Failure} (hp : r.ingest.producer = .recording chunk f) :
      Transition r (.ingest .produce) (r.written? ⟨.error, chunk.name⟩)
        { r with ingest := r.ingest.recordFailure chunk f }
  | take {batch : AppearanceBatch} {queue : List Delivery} (hw : r.writer = .receiving)
      (hq : r.ingest.queue = .batch batch :: queue) :
      Transition r .write (some (.taken (.batch batch)))
        { r with ingest := { r.ingest with queue }, writer := .inserting batch }
  | takeFailure {f : Failure} {queue : List Delivery} (hw : r.writer = .receiving)
      (hq : r.ingest.queue = .failure f :: queue) :
      Transition r .write (some (.taken (.failure f)))
        (r.returnWith (.error (f.within .decodeChunks)))
  | finish (hw : r.writer = .receiving) (hq : r.ingest.queue = [])
      (hp : r.ingest.producer = .ended) : Transition r .write none (r.returnWith (.ok ()))
  | insert {batch : AppearanceBatch} {sink : Sink} {files : FileStore}
      (hw : r.writer = .inserting batch)
      (hs : AppearanceSink.insert r.sink r.ingest.files batch = (.ok (), sink, files)) :
      Transition r .write none
        { ingest := { r.ingest with files }
          sink := sink
          writer := if batch.lastInChunk then .flushing batch else .receiving }
  | flush {batch : AppearanceBatch} {sink : Sink} {files : FileStore}
      (hw : r.writer = .flushing batch)
      (hs : AppearanceSink.flush r.sink r.ingest.files = (.ok (), sink, files)) :
      Transition r .write none
        { ingest := { r.ingest with files }, sink := sink, writer := .marking batch }
  /-- The sink rejects the batch, or fails to flush it. -/
  | refuse {batch : AppearanceBatch} {f : Failure} {sink : Sink} {files : FileStore}
      (hs : (r.writer = .inserting batch ∧
          AppearanceSink.insert r.sink r.ingest.files batch = (.error f, sink, files)) ∨
        (r.writer = .flushing batch ∧
          AppearanceSink.flush r.sink r.ingest.files = (.error f, sink, files))) :
      Transition r .write none
        { ingest := { r.ingest with files }, sink := sink, writer := .rejecting batch f }
  | mark {batch : AppearanceBatch} {files : FileStore} (hw : r.writer = .marking batch)
      (hs : r.record .done batch.chunkName =
        (.ok (), { r with ingest := { r.ingest with files } })) :
      Transition r .write (r.written? ⟨.done, batch.chunkName⟩)
        { r with ingest := { r.ingest with files }, writer := .receiving }
  | reject {batch : AppearanceBatch} {f : Failure} {files : FileStore}
      (hw : r.writer = .rejecting batch f)
      (hs : r.record .appearanceError batch.chunkName =
        (.ok (), { r with ingest := { r.ingest with files } })) :
      Transition r .write (r.written? ⟨.appearanceError, batch.chunkName⟩)
        (returnWith { r with ingest := { r.ingest with files } }
          (.error (f.within (.writeAppearances batch.chunkName))))
  /-- A line of the writer's does not get into the log. -/
  | recordFails {batch : AppearanceBatch} {status : ChunkStatus} {f : Failure} {files : FileStore}
      (hw : (r.writer = .marking batch ∧ status = .done) ∨
        ∃ g, r.writer = .rejecting batch g ∧ status = .appearanceError)
      (hs : r.record status batch.chunkName =
        (.error f, { r with ingest := { r.ingest with files } })) :
      Transition r .write none
        (returnWith { r with ingest := { r.ingest with files } } (.error f))

theorem transition_of_writeOn (h : r.writeOn = some t) (hw : r.writer ≠ .receiving) :
    r.Transition .write (r.output? .write) t := by
  unfold writeOn at h
  cases hwriter : r.writer with
  | receiving => exact absurd hwriter hw
  | inserting batch =>
    have hnone : r.output? .write = none := by simp only [output?, hwriter]
    simp only [hwriter] at h
    cases h
    rw [hnone]
    cases hs : AppearanceSink.insert r.sink r.ingest.files batch with
    | mk outcome rest =>
      cases outcome with
      | ok _ => exact .insert hwriter hs
      | error f => exact .refuse (.inl ⟨hwriter, hs⟩)
  | flushing batch =>
    have hnone : r.output? .write = none := by simp only [output?, hwriter]
    simp only [hwriter] at h
    cases h
    rw [hnone]
    cases hs : AppearanceSink.flush r.sink r.ingest.files with
    | mk outcome rest =>
      cases outcome with
      | ok _ => exact .flush hwriter hs
      | error f => exact .refuse (.inr ⟨hwriter, hs⟩)
  | marking batch =>
    simp only [hwriter] at h
    obtain ⟨files, hframe⟩ := r.record_frame .done batch.chunkName
    have hout : r.output? .write = r.written? ⟨.done, batch.chunkName⟩ := by
      simp only [output?, hwriter]
    cases hs : r.record .done batch.chunkName with
    | mk outcome after =>
      rw [hs] at h hframe
      subst hframe
      rw [hout]
      cases outcome with
      | ok _ =>
        cases h
        exact .mark hwriter hs
      | error f =>
        cases h
        rw [(written?_of_record_error hs).1]
        exact .recordFails (.inl ⟨hwriter, rfl⟩) hs
  | rejecting batch f =>
    simp only [hwriter] at h
    obtain ⟨files, hframe⟩ := r.record_frame .appearanceError batch.chunkName
    have hout : r.output? .write = r.written? ⟨.appearanceError, batch.chunkName⟩ := by
      simp only [output?, hwriter]
    cases hs : r.record .appearanceError batch.chunkName with
    | mk outcome after =>
      rw [hs] at h hframe
      subst hframe
      rw [hout]
      cases outcome with
      | ok _ =>
        cases h
        exact .reject hwriter hs
      | error g =>
        cases h
        rw [(written?_of_record_error hs).1]
        exact .recordFails (.inr ⟨f, hwriter, rfl⟩) hs
  | returned result =>
    simp only [hwriter] at h
    cases h

theorem transition_of_write (h : r.write = some t) :
    r.Transition .write (r.output? .write) t := by
  by_cases hw : r.writer = .receiving
  · have hout : r.output? .write = r.ingest.queue.head?.map .taken := by
      simp only [output?, hw]
    unfold write at h
    simp only [hw, Ingest.takeDelivery] at h
    rw [hout]
    cases hq : r.ingest.queue with
    | nil =>
      simp only [hq] at h
      cases hp : r.ingest.producer with
      | ended =>
        simp only [hp] at h
        cases h
        exact .finish hw hq hp
      | _ =>
        simp only [hp] at h
        cases h
    | cons delivery queue =>
      simp only [hq] at h
      cases h
      cases delivery with
      | batch batch => exact .take hw hq
      | failure f => exact .takeFailure hw hq
  · have hon : r.writeOn = some t := by
      unfold write at h
      split at h
      · next heq => exact absurd heq hw
      · exact h
    exact transition_of_writeOn hon hw

/-- Everything that a move of a run can be. -/
theorem transition_of_shown {move : RunMove} {output : Option RunOutput}
    (h : r.shown move = some (output, t)) : r.Transition move output t := by
  obtain ⟨next, hs, heq⟩ := Option.map_eq_some_iff.mp h
  cases heq
  cases move with
  | write => exact transition_of_write hs
  | ingest move =>
    cases move with
    | produce =>
      obtain ⟨ingest, hi, rfl⟩ := Option.map_eq_some_iff.mp hs
      by_cases hrec : ∃ chunk f, r.ingest.producer = .recording chunk f
      · obtain ⟨chunk, f, hp⟩ := hrec
        simp only [Ingest.produce, hp, Ingest.produceOther] at hi
        cases hi
        have hout : r.output? (.ingest .produce) = r.written? ⟨.error, chunk.name⟩ := by
          simp only [output?, hp]
        rw [hout]
        exact .recordError hp
      · have hnone : r.output? (.ingest .produce) = none := by
          simp only [output?]
          split
          · next chunk f hp => exact absurd ⟨chunk, f, hp⟩ hrec
          · rfl
        rw [hnone]
        exact .ingest (by simp) (fun chunk f _ hp => hrec ⟨chunk, f, hp⟩)
          (Ingest.transition_of_produce hi)
    | decode move =>
      obtain ⟨ingest, hi, rfl⟩ := Option.map_eq_some_iff.mp hs
      exact .ingest (by simp) (by simp) (Ingest.transition_of_decodeMove hi)
    | receive => cases hs
    | abandon => cases hs

/-- The first move of a run is that the chunks are listed. -/
theorem Transition.of_fresh {move : RunMove} {output : Option RunOutput}
    (h : r.Transition move output t) (hp : r.ingest.producer = .listing)
    (hq : r.ingest.queue = []) (ha : r.ingest.abandoned = false) (hw : r.writer = .receiving) :
    output = none ∧ t = { r with ingest := r.ingest.listChunks } := by
  cases h with
  | ingest hm hn hi =>
    cases hi with
    | list => exact ⟨rfl, rfl⟩
    | next hl | receive _ hl | record hl | decode _ hl | decodeOn _ hl | send hl =>
      rw [hp] at hl
      cases hl
    | giveUp hleft =>
      rw [ha] at hleft
      cases hleft
    | abandon => exact absurd rfl hm.2
  | recordError hl | finish _ _ hl =>
    rw [hp] at hl
    cases hl
  | take _ hl | takeFailure _ hl =>
    rw [hq] at hl
    cases hl
  | insert hl | flush hl | mark hl | reject hl =>
    rw [hw] at hl
    cases hl
  | refuse hl =>
    rcases hl with ⟨hl, -⟩ | ⟨hl, -⟩ <;>
      · rw [hw] at hl
        cases hl
  | recordFails hl =>
    rcases hl with ⟨hl, -⟩ | ⟨_, hl, -⟩ <;>
      · rw [hw] at hl
        cases hl

end IngestRun

end AppearanceIndex
