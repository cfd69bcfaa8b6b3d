import AppearanceIndex.Proofs.Decode.Shards
import AppearanceIndex.Proofs.Decode.Stopping
import AppearanceIndex.Proofs.Decode.Undisturbed

/-!
# Decodes in step

Whatever a worker asks of its source lies between the header and the end of the tables
(`ReadRequest.Inside`): the shards lie inside the address table, and a span is only asked for if it
fits. So a decode sees nothing else of its source. Two chunks whose sources agree there
(`OpenChunk.Alike`) are decoded in step (`DecodeStream.InStep`): every course of one decode is, with
the other chunk put in the place of the first, a course of the other.
-/

namespace AppearanceIndex

/-! ## What is asked of a source -/

namespace ReadRequest

/-- The read lies behind the header and ends with the tables at the latest. -/
def Inside (request : ReadRequest) (h : ChunkHeader) : Prop :=
  ChunkHeader.width ≤ request.offset ∧ request.offset + request.count ≤ h.fileSize

variable {h : ChunkHeader}

/-- The read of consecutive records. -/
theorem inside_records {start count : Nat} (hs : start + count ≤ h.addressCount.toNat) :
    Inside ⟨AddressRecord.location h start, count * ChunkHeader.addressRecordWidth⟩ h :=
  ⟨Nat.le_add_right _ _, AddressRecord.location_le_fileSize hs⟩

/-- The read of a span, be it empty, at the very end of the tables even. -/
theorem inside_span {record : AddressRecord} (hf : record.Fits h) :
    Inside ⟨record.spanStart h, record.spanBytes⟩ h :=
  ⟨Nat.le_trans (Nat.le_add_right _ _) (Nat.le_add_right _ _), AddressRecord.span_le_fileSize hf⟩

end ReadRequest

/-- In a shard of the table, a worker asks for nothing but parts of the tables, whatever the records
say. -/
theorem WorkerPhase.inside_of_requests {chunk : OpenChunk} {shard : Shard} {phase : WorkerPhase}
    {request : ReadRequest} (hs : shard.stop ≤ chunk.header.addressCount.toNat)
    (hr : request ∈ phase.requests chunk shard) : request.Inside chunk.header := by
  cases phase with
  | loading =>
    cases List.mem_singleton.mp hr
    exact ReadRequest.inside_records hs
  | fetching record records =>
    by_cases hf : record.Fits chunk.header
    · rw [requests, if_pos hf] at hr
      cases List.mem_singleton.mp hr
      exact ReadRequest.inside_span hf
    · rw [requests, if_neg hf] at hr
      cases hr
  | _ => cases hr

namespace DecodeStream

variable {chunk : OpenChunk} {maxWorkers capacity : Positive} {s t : DecodeStream}
  {history : DecodeHistory}

/-- No shard of the decode reaches beyond the address table. -/
def InTable (s : DecodeStream) : Prop :=
  ∀ worker ∈ s.workers, worker.shard.stop ≤ s.chunk.header.addressCount.toNat

theorem Course.inTable (h : (ofChunk chunk maxWorkers capacity).Course history t) :
    t.InTable := by
  intro worker hw
  rw [h.chunk_eq]
  exact stop_le_of_mem_planShards (h.mem_shards hw)

/-- In every course of a decode, every worker asks for parts of the tables only. -/
theorem Course.inside_of_requested (h : (ofChunk chunk maxWorkers capacity).Course history t)
    {i : Nat} {request : ReadRequest} (hr : request ∈ history.requested i) :
    request.Inside chunk.header := by
  induction h with
  | start => cases hr
  | @step history t u move received hc hs ih =>
    rw [DecodeHistory.requested_append, DecodeHistory.requested_single, List.mem_append] at hr
    rcases hr with hr | hr
    · exact ih hr
    · unfold DecodeEvent.requested at hr
      split at hr
      · split at hr
        · next worker hw =>
          have hinside := WorkerPhase.inside_of_requests
            (hc.inTable worker (List.mem_of_getElem? hw)) hr
          rwa [hc.chunk_eq] at hinside
        · cases hr
      · cases hr

end DecodeStream

/-! ## Chunks that decode alike -/

namespace OpenChunk

/-- The chunks have the same range and tables of the same lengths, and their sources give the same
of the tables. -/
structure Alike (chunk other : OpenChunk) : Prop where
  range : other.range = chunk.range
  header : chunk.header.Alike other.header
  read : ∀ request : ReadRequest, request.Inside chunk.header →
    other.source.read request.offset request.count =
      chunk.source.read request.offset request.count

variable {chunk other : OpenChunk}

theorem Alike.symm (h : chunk.Alike other) : other.Alike chunk where
  range := h.range.symm
  header := h.header.symm
  read := by
    rintro request ⟨hstart, hstop⟩
    rw [h.header.fileSize_eq] at hstop
    exact (h.read request ⟨hstart, hstop⟩).symm

theorem Alike.shards_eq (h : chunk.Alike other) (maxWorkers : Positive) :
    other.shards maxWorkers = chunk.shards maxWorkers := by
  unfold shards
  rw [h.header.addressCount]

theorem Alike.readSpan_eq (h : chunk.Alike other) (shard : Shard) (record : AddressRecord) :
    other.readSpan shard record = chunk.readSpan shard record :=
  readSpan_congr h.range h.header (fun hf => h.read _ (ReadRequest.inside_span hf)) shard

theorem Alike.decodeRecords_eq (h : chunk.Alike other) (shard : Shard)
    (records : List AddressRecord) :
    other.decodeRecords shard records = chunk.decodeRecords shard records := by
  induction records with
  | nil => rfl
  | cons record records ih =>
    unfold decodeRecords
    rw [h.readSpan_eq, ih]

/-- A shard of the table decodes to the same appearances, and fails in the same way if it does. -/
theorem Alike.decodeShard_eq (h : chunk.Alike other) {shard : Shard}
    (hs : shard.stop ≤ chunk.header.addressCount.toNat) :
    other.decodeShard shard = chunk.decodeShard shard := by
  have hread := h.read _ (ReadRequest.inside_records hs)
  unfold decodeShard
  rw [readRecords_congr h.range hread]
  cases chunk.readRecords shard with
  | error f => rfl
  | ok records => exact h.decodeRecords_eq shard records

theorem Alike.next_eq (h : chunk.Alike other) {shard : Shard}
    (hs : shard.stop ≤ chunk.header.addressCount.toNat) (phase : WorkerPhase) (cancelled : Bool)
    (room : OutputRoom) :
    phase.next other shard cancelled room = phase.next chunk shard cancelled room :=
  WorkerPhase.next_of_agree h.range h.header fun request hr =>
    h.read request (WorkerPhase.inside_of_requests hs hr)

end OpenChunk

/-! ## The same moves -/

def DecodeStream.withChunk (s : DecodeStream) (chunk : OpenChunk) : DecodeStream :=
  { s with chunk := chunk }

def DecodeEvent.withChunk (e : DecodeEvent) (chunk : OpenChunk) : DecodeEvent :=
  { e with before := e.before.withChunk chunk, after := e.after.withChunk chunk }

def DecodeHistory.withChunk (history : DecodeHistory) (chunk : OpenChunk) : DecodeHistory :=
  history.map (·.withChunk chunk)

namespace DecodeStream

variable {s t : DecodeStream} {chunk other : OpenChunk} {maxWorkers capacity : Positive}
  {history : DecodeHistory}

theorem withEffect_withChunk (s : DecodeStream) (other : OpenChunk) (i : Nat)
    (effect : WorkerEffect) :
    (s.withChunk other).withEffect i effect = (s.withEffect i effect).withChunk other := by
  cases effect <;> rfl

theorem work_withChunk (ha : s.chunk.Alike other) (hs : s.InTable) (i : Nat) :
    (s.withChunk other).work i = (s.work i).map (·.withChunk other) := by
  unfold work
  rw [show (s.withChunk other).workers = s.workers from rfl,
    show (s.withChunk other).chunk = other from rfl,
    show (s.withChunk other).cancelled = s.cancelled from rfl,
    show (s.withChunk other).room = s.room from rfl]
  cases hw : s.workers[i]? with
  | none => rfl
  | some worker =>
    have hstop := hs worker (List.mem_of_getElem? hw)
    simp only [ha.next_eq hstop]
    cases worker.phase.next s.chunk worker.shard s.cancelled s.room with
    | none => rfl
    | some outcome =>
      obtain ⟨phase, effect⟩ := outcome
      exact congrArg some (withEffect_withChunk
        { s with workers := s.workers.set i { worker with phase } } other i effect)

theorem poll_withChunk (s : DecodeStream) (other : OpenChunk) :
    (s.withChunk other).poll = (s.poll.1, s.poll.2.withChunk other) := by
  unfold poll
  rw [show (s.withChunk other).finished = s.finished from rfl,
    show (s.withChunk other).errors = s.errors from rfl]
  cases s.finished <;> cases s.errors <;> rfl

theorem finish_withChunk (s : DecodeStream) (other : OpenChunk) :
    (s.withChunk other).finish = (s.finish.1, s.finish.2.withChunk other) := by
  unfold finish
  rw [show (s.withChunk other).errors = s.errors from rfl,
    show (s.withChunk other).cancelled = s.cancelled from rfl]
  cases s.errors <;> cases s.cancelled <;> rfl

theorem take_withChunk (s : DecodeStream) (other : OpenChunk) :
    (s.withChunk other).take = (s.take.1, s.take.2.withChunk other) := by
  unfold take
  rw [show (s.withChunk other).output = s.output from rfl,
    show (s.withChunk other).closed = s.closed from rfl, finish_withChunk]
  cases s.output <;> cases s.closed <;> rfl

/-- Every move is possible in both decodes or in none, and leads to the same. -/
theorem step_withChunk (ha : s.chunk.Alike other) (hs : s.InTable) (move : DecodeMove) :
    (s.withChunk other).step move =
      (s.step move).map fun outcome => (outcome.1, outcome.2.withChunk other) := by
  cases move with
  | work i => simp only [step, work_withChunk ha hs, Option.map_map, Function.comp_def]
  | poll =>
    simp only [step, poll_withChunk, apply_ite (Option.map _)]
    rfl
  | take =>
    simp only [step, take_withChunk, apply_ite (Option.map _)]
    rfl
  | close | drain =>
    simp only [step, apply_ite (Option.map _)]
    rfl
  | discard =>
    simp only [step]
    rw [show (s.withChunk other).draining = s.draining from rfl,
      show (s.withChunk other).output = s.output from rfl]
    cases s.draining <;> cases s.output <;> rfl
  | cancel | abandon => rfl

theorem ofChunk_withChunk (ha : chunk.Alike other) (maxWorkers capacity : Positive) :
    (ofChunk chunk maxWorkers capacity).withChunk other = ofChunk other maxWorkers capacity := by
  have hshards := ha.shards_eq maxWorkers
  unfold OpenChunk.shards at hshards
  unfold ofChunk withChunk
  rw [hshards]

theorem Course.withChunk (h : (ofChunk chunk maxWorkers capacity).Course history t)
    (ha : chunk.Alike other) :
    (ofChunk other maxWorkers capacity).Course (history.withChunk other) (t.withChunk other) := by
  -- on the way the shards stay those that were planned, so every step asks for parts of the tables
  induction h with
  | start =>
    rw [ofChunk_withChunk ha]
    exact .start
  | @step history t u move received hc hs ih =>
    have hstep : (t.withChunk other).step move = some (received, u.withChunk other) := by
      rw [step_withChunk (hc.chunk_eq.symm ▸ ha) hc.inTable, hs]
      rfl
    have hboth := ih.step hstep
    unfold DecodeHistory.withChunk at hboth ⊢
    rwa [List.map_append]

/-- The decodes differ in nothing but the chunk, every shard decodes to the same appearances and the
same failure, and whatever sequence of moves one of them can make, the other can, with the same
received, sent and reported in each. -/
structure InStep (s other : DecodeStream) : Prop where
  same : s.withChunk other.chunk = other
  decoded : ∀ worker ∈ s.workers,
    other.chunk.decodeShard worker.shard = s.chunk.decodeShard worker.shard
  forth : ∀ history t, s.Course history t →
    other.Course (history.withChunk other.chunk) (t.withChunk other.chunk)
  back : ∀ history t, other.Course history t →
    s.Course (history.withChunk s.chunk) (t.withChunk s.chunk)

/-- Alike chunks are decoded in step. -/
theorem inStep_of_alike (ha : chunk.Alike other) (maxWorkers capacity : Positive) :
    (ofChunk chunk maxWorkers capacity).InStep (ofChunk other maxWorkers capacity) where
  same := ofChunk_withChunk ha maxWorkers capacity
  decoded := fun worker hw => ha.decodeShard_eq (Course.start.inTable worker hw)
  forth := fun _ _ h => h.withChunk ha
  back := fun _ _ h => h.withChunk ha.symm

end DecodeStream

/-! ## The same beginning -/

/-- Both attempts are refused for the same reason, or die, or begin with related decodes. -/
inductive DecodeStart.Related (r : DecodeStream → DecodeStream → Prop) :
    DecodeStart → DecodeStart → Prop where
  | refused (f : Failure) : Related r (.refused f) (.refused f)
  | aborted : Related r .aborted .aborted
  | started {s other : DecodeStream} (h : r s other) : Related r (.started s) (.started other)

end AppearanceIndex
