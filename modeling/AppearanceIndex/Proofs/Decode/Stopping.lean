import AppearanceIndex.Proofs.Chunk.Alike
import AppearanceIndex.Proofs.Decode.Ending

/-!
# How soon workers stop

A worker looks at the token before it reads the records of its shard and before it begins with a
record, and between two looks it reads at most once. So when the token has been cancelled, whoever
did it, a worker that has just looked may still make the read that it is about to make, and then
only sends what is left of the record in hand (`DecodeStream.prompt_of_course`).

`WorkerPhase.requests` are the reads that the next step of a worker asks of its source: all that the
step learns of it, and a step that is refused one fails (`OpenChunk.ReadsAsRequested`).
`WorkerPhase.due` bounds those that a worker makes before it looks at the token, and
`WorkerPhase.inHand` is what it sends before it looks. While the token is cancelled every step
lowers both by what it does.
-/

namespace AppearanceIndex

structure ReadRequest where
  offset : Nat
  count : Nat
deriving DecidableEq

/-! ## Steps of a worker -/

namespace OpenChunk

variable {chunk other : OpenChunk}

/-- The records of a shard come out of one read. -/
theorem readRecords_congr (hrange : other.range = chunk.range) {shard : Shard}
    (h : other.source.read (AddressRecord.location chunk.header shard.start)
        (shard.length * ChunkHeader.addressRecordWidth) =
      chunk.source.read (AddressRecord.location chunk.header shard.start)
        (shard.length * ChunkHeader.addressRecordWidth)) :
    other.readRecords shard = chunk.readRecords shard := by
  have hlocation : AddressRecord.location other.header shard.start =
      AddressRecord.location chunk.header shard.start := rfl
  unfold readRecords
  rw [hrange, hlocation, h]

/-- The span of a record comes out of one read if it fits, and of none if not. -/
theorem readSpan_congr (hrange : other.range = chunk.range)
    (hheader : chunk.header.Alike other.header) {record : AddressRecord}
    (h : record.Fits chunk.header →
      other.source.read (record.spanStart chunk.header) record.spanBytes =
        chunk.source.read (record.spanStart chunk.header) record.spanBytes) (shard : Shard) :
    other.readSpan shard record = chunk.readSpan shard record := by
  unfold readSpan
  by_cases hf : record.Fits chunk.header
  · rw [if_pos hf, if_pos ((hheader.fits_iff record).mpr hf), hrange, hheader.spanStart_eq, h hf]
  · rw [if_neg hf, if_neg (fun hn => hf ((hheader.fits_iff record).mp hn)), hrange,
      hheader.spanError_eq]

end OpenChunk

namespace WorkerPhase

variable {chunk other : OpenChunk} {shard : Shard} {cancelled : Bool} {room : OutputRoom}
  {phase : WorkerPhase}

/-- What the next step asks of the source. -/
def requests (chunk : OpenChunk) (shard : Shard) : WorkerPhase → List ReadRequest
  | loading =>
    [⟨AddressRecord.location chunk.header shard.start,
      shard.length * ChunkHeader.addressRecordWidth⟩]
  | fetching record _ =>
    if record.Fits chunk.header then [⟨record.spanStart chunk.header, record.spanBytes⟩] else []
  | _ => []

/-- A step learns nothing of the source but the answers to what it asks, and nothing of the header
but the lengths of the tables. -/
theorem next_of_agree (hrange : other.range = chunk.range)
    (hheader : chunk.header.Alike other.header)
    (h : ∀ request ∈ phase.requests chunk shard,
      other.source.read request.offset request.count =
        chunk.source.read request.offset request.count) :
    phase.next other shard cancelled room = phase.next chunk shard cancelled room := by
  cases phase with
  | loading =>
    have hread := h _ (List.mem_singleton_self _)
    simp only [next, OpenChunk.readRecords_congr hrange hread]
  | fetching record records =>
    have hread : record.Fits chunk.header →
        other.source.read (record.spanStart chunk.header) record.spanBytes =
          chunk.source.read (record.spanStart chunk.header) record.spanBytes := fun hf =>
      h ⟨record.spanStart chunk.header, record.spanBytes⟩ (by simp [requests, hf])
    simp only [next, OpenChunk.readSpan_congr hrange hheader hread]
  | between records => cases records <;> rfl
  | sending address apps records => cases apps <;> rfl
  | _ => rfl

/-- A request that is refused fails the worker. -/
theorem next_of_refused {request : ReadRequest} {e : IoError}
    (hr : request ∈ phase.requests chunk shard)
    (h : chunk.source.read request.offset request.count = .error e) :
    ∃ f, phase.next chunk shard cancelled room = some (failing f, .silent) := by
  cases phase with
  | loading =>
    obtain rfl := List.mem_singleton.mp hr
    simp only [next, OpenChunk.readRecords, h]
    exact ⟨_, rfl⟩
  | fetching record records =>
    by_cases hf : record.Fits chunk.header
    · rw [requests, if_pos hf] at hr
      obtain rfl := List.mem_singleton.mp hr
      simp only [next, OpenChunk.readSpan, if_pos hf, h]
      exact ⟨_, rfl⟩
    · rw [requests, if_neg hf] at hr
      cases hr
  | _ => cases hr

end WorkerPhase

/-- What workers read are their requests: over another source they do the same if it answers these
alike, and a worker that is refused one fails. -/
structure OpenChunk.ReadsAsRequested (chunk : OpenChunk) : Prop where
  learned : ∀ (source : PositionalSource) (phase : WorkerPhase) (shard : Shard) (cancelled : Bool)
    (room : OutputRoom), (∀ request ∈ phase.requests chunk shard,
      source.read request.offset request.count =
        chunk.source.read request.offset request.count) →
    phase.next { chunk with source } shard cancelled room = phase.next chunk shard cancelled room
  asked : ∀ (phase : WorkerPhase) (shard : Shard) (cancelled : Bool) (room : OutputRoom),
    ∀ request ∈ phase.requests chunk shard, ∀ e,
      chunk.source.read request.offset request.count = .error e →
      ∃ f, phase.next chunk shard cancelled room = some (.failing f, .silent)

theorem OpenChunk.readsAsRequested (chunk : OpenChunk) : chunk.ReadsAsRequested where
  learned _ _ _ _ _ h := WorkerPhase.next_of_agree rfl ⟨rfl, rfl⟩ h
  asked _ _ _ _ _ hr _ h := WorkerPhase.next_of_refused hr h

namespace WorkerPhase

variable {chunk : OpenChunk} {shard : Shard} {cancelled : Bool} {room : OutputRoom}
  {phase after : WorkerPhase} {effect : WorkerEffect}

/-- At most how many reads a worker makes before it looks at the token. -/
def due : WorkerPhase → Nat
  | loading | fetching .. => 1
  | _ => 0

theorem due_le_one (phase : WorkerPhase) : phase.due ≤ 1 := by
  cases phase <;> simp [due]

/-- What a worker sends before it looks at the token, if it is received. -/
def inHand (chunk : OpenChunk) (shard : Shard) : WorkerPhase → List DecodedAppearance
  | fetching record _ =>
    match chunk.readSpan shard record with
    | .ok apps => apps.map (DecodedAppearance.mk record.address)
    | .error _ => []
  | sending address apps _ => apps.map (DecodedAppearance.mk address)
  | _ => []

/-- While the token is cancelled, no look at it lets a worker go on. -/
theorem due_next (h : phase.next chunk shard true room = some (after, effect)) :
    (phase.requests chunk shard).length + after.due ≤ phase.due := by
  cases phase with
  | loading =>
    simp only [next] at h
    split at h <;> cases h <;> exact Nat.le_refl 1
  | fetching record records =>
    have hone : ((fetching record records).requests chunk shard).length ≤ 1 := by
      by_cases hf : record.Fits chunk.header <;> simp [requests, hf]
    simp only [next] at h
    split at h <;> cases h <;> simpa [due] using hone
  | between records => cases records <;> cases h <;> exact Nat.le_refl 0
  | sending address apps records =>
    cases apps with
    | nil =>
      cases h
      exact Nat.le_refl 0
    | cons => cases room <;> cases h <;> exact Nat.le_refl 0
  | ended => cases h
  | _ =>
    cases h
    exact Nat.le_refl 0

/-- While the token is cancelled, what is sent comes from what is in hand. -/
theorem inHand_next (h : phase.next chunk shard true room = some (after, effect)) :
    effect.items ++ after.inHand chunk shard <+: phase.inHand chunk shard := by
  cases phase with
  | loading =>
    simp only [next] at h
    split at h <;> cases h <;> exact List.prefix_refl _
  | fetching record records =>
    simp only [next] at h
    split at h
    · next apps hread =>
      cases h
      simp [WorkerEffect.items, inHand, hread]
    · cases h
      exact List.nil_prefix
  | between records => cases records <;> cases h <;> exact List.prefix_refl _
  | sending address apps records =>
    cases apps with
    | nil =>
      cases h
      exact List.prefix_refl _
    | cons app apps =>
      cases room with
      | free =>
        cases h
        simp [WorkerEffect.items, inHand]
      | full => cases h
      | abandoned =>
        cases h
        exact List.nil_prefix
  | ended => cases h
  | _ =>
    cases h
    exact List.prefix_refl _

/-! ### The record in hand -/

/-- The worker has begun with this record, has the others still before it, and has these
appearances of the record still to send. -/
inductive AtRecord (chunk : OpenChunk) (shard : Shard) :
    WorkerPhase → AddressRecord → List AddressRecord → List Appearance → Prop where
  | fetching {record : AddressRecord} {others : List AddressRecord} {apps : List Appearance}
      (h : chunk.readSpan shard record = .ok apps) :
      AtRecord chunk shard (fetching record others) record others apps
  | sending {record : AddressRecord} {others : List AddressRecord} {sent apps : List Appearance}
      (h : chunk.readSpan shard record = .ok (sent ++ apps)) :
      AtRecord chunk shard (sending record.address apps others) record others apps

/-- The records of a phase are the end of those of the shard, and what it is sending is the end of
the span of the record in front of them. -/
def Follows (chunk : OpenChunk) (shard : Shard) : WorkerPhase → Prop
  | between records => ∃ done, chunk.readRecords shard = .ok (done ++ records)
  | fetching record records => ∃ done, chunk.readRecords shard = .ok (done ++ record :: records)
  | sending address apps records => ∃ done record sent,
      chunk.readRecords shard = .ok (done ++ record :: records) ∧ record.address = address ∧
        chunk.readSpan shard record = .ok (sent ++ apps)
  | _ => True

theorem Follows.next (hf : phase.Follows chunk shard)
    (h : phase.next chunk shard cancelled room = some (after, effect)) :
    after.Follows chunk shard := by
  cases phase with
  | waiting => cases cancelled <;> cases h <;> trivial
  | loading =>
    simp only [WorkerPhase.next] at h
    split at h
    · next records hread =>
      cases h
      exact ⟨[], hread⟩
    · cases h
      trivial
  | between records =>
    cases records with
    | nil =>
      cases h
      trivial
    | cons record records =>
      cases cancelled with
      | true =>
        cases h
        trivial
      | false =>
        cases h
        exact hf
  | fetching record records =>
    obtain ⟨done, hrecords⟩ := hf
    simp only [WorkerPhase.next] at h
    split at h
    · next apps hread =>
      cases h
      exact ⟨done, record, [], hrecords, rfl, hread⟩
    · cases h
      trivial
  | sending address apps records =>
    obtain ⟨done, record, sent, hrecords, haddress, hspan⟩ := hf
    cases apps with
    | nil =>
      cases h
      exact ⟨done ++ [record], by rw [hrecords, List.append_assoc]; rfl⟩
    | cons app apps =>
      cases room with
      | free =>
        cases h
        exact ⟨done, record, sent ++ [app], hrecords, haddress, by
          rw [hspan, List.append_assoc]; rfl⟩
      | full => cases h
      | abandoned =>
        cases h
        trivial
  | ended => cases h
  | _ =>
    cases h
    trivial

/-- What is in hand is what is left of one record of the shard. -/
theorem Follows.inHand_eq (hf : phase.Follows chunk shard) :
    phase.inHand chunk shard = [] ∨ ∃ done record others apps,
      chunk.readRecords shard = .ok (done ++ record :: others) ∧
        phase.AtRecord chunk shard record others apps ∧
        phase.inHand chunk shard = apps.map (DecodedAppearance.mk record.address) := by
  cases phase with
  | fetching record others =>
    obtain ⟨done, hrecords⟩ := hf
    cases hspan : chunk.readSpan shard record with
    | ok apps =>
      exact .inr ⟨done, record, others, apps, hrecords, .fetching hspan, by simp [inHand, hspan]⟩
    | error f => exact .inl (by simp [inHand, hspan])
  | sending address apps others =>
    obtain ⟨done, record, sent, hrecords, rfl, hspan⟩ := hf
    exact .inr ⟨done, record, others, apps, hrecords, .sending hspan, rfl⟩
  | _ => exact .inl rfl

end WorkerPhase

/-! ## What is read, sent and cancelled in a course -/

namespace DecodeEvent

/-- What a worker asks of the source in this move. -/
def requested (worker : Nat) (e : DecodeEvent) : List ReadRequest :=
  if e.move = .work worker then
    match e.before.workers[worker]? with
    | some w => w.phase.requests e.before.chunk w.shard
    | none => []
  else []

/-- What a worker adds to the output in this move. -/
def emitted (e : DecodeEvent) : List Sent :=
  match e.move with
  | .work _ => e.after.output.drop e.before.output.length
  | _ => []

/-- The move is one of those that cancel the token: of a worker that has reported its failure, of a
consumer that receives a failure, drains or goes away, or of anybody who holds the token. -/
def stops (e : DecodeEvent) : Prop :=
  match e.move with
  | .work i => ∃ worker, e.before.workers[i]? = some worker ∧ worker.phase = .cancelling
  | .poll | .take => ∃ f, e.received = some (.failure f)
  | .cancel | .drain | .abandon => True
  | .close | .discard => False

end DecodeEvent

namespace DecodeHistory

def requested (worker : Nat) (history : DecodeHistory) : List ReadRequest :=
  history.flatMap (·.requested worker)

def emitted (history : DecodeHistory) : List Sent := history.flatMap (·.emitted)

@[simp] theorem requested_append (worker : Nat) (h k : DecodeHistory) :
    requested worker (h ++ k) = requested worker h ++ requested worker k := List.flatMap_append

@[simp] theorem emitted_append (h k : DecodeHistory) :
    emitted (h ++ k) = emitted h ++ emitted k := List.flatMap_append

@[simp] theorem requested_single (worker : Nat) (e : DecodeEvent) :
    requested worker [e] = e.requested worker := by simp [requested]

@[simp] theorem emitted_single (e : DecodeEvent) : emitted [e] = e.emitted := by simp [emitted]

end DecodeHistory

namespace DecodeStream

variable {s t u : DecodeStream} {move : DecodeMove} {received : Option Received}
  {history before after : DecodeHistory}

/-- The token is cancelled behind a move if it was before or the move cancels it. -/
theorem Transition.cancelled_iff (h : s.Transition move received t) :
    t.cancelled = true ↔ s.cancelled = true ∨ DecodeEvent.stops ⟨s, move, received, t⟩ := by
  cases h with
  | @work i worker phase effect hw hn =>
    have hstops : DecodeEvent.stops ⟨s, .work i, none, (({ s with
        workers := s.workers.set i { worker with phase } } : DecodeStream).withEffect i effect)⟩ ↔
        effect.cancels = true := by
      simp only [DecodeEvent.stops, hw, Option.some.injEq, exists_eq_left']
      cases WorkerPhase.failureStep_of_next hn with
      | fails hp _ he =>
        subst he
        refine iff_of_false (fun hc => ?_) (by simp [WorkerEffect.cancels])
        rw [hc] at hp
        cases hp
      | reports hp _ he =>
        subst he
        simp [hp, WorkerEffect.cancels]
      | cancels hp _ he =>
        subst he
        simp [hp, WorkerEffect.cancels]
      | works hp _ _ hc =>
        refine iff_of_false (fun hcancelling => ?_) (by simp [hc])
        rw [hcancelling] at hp
        cases hp
    rw [hstops, cancelled_withEffect, Bool.or_eq_true]
  | pollError | takeError => simp [DecodeEvent.stops]
  | takeCancelled _ _ _ _ _ hx => simp [DecodeEvent.stops, hx]
  | cancel => simp [DecodeEvent.stops, DecodeStream.cancel]
  | drain | abandon => simp [DecodeEvent.stops]
  | _ => simp [DecodeEvent.stops]

/-- From then on the token stays cancelled. -/
theorem Course.cancelled_iff (h : s.Course history t) :
    t.cancelled = true ↔ s.cancelled = true ∨ ∃ e ∈ history, e.stops := by
  refine h.induct (P := fun history t => t.cancelled = true ↔
    s.cancelled = true ∨ ∃ e ∈ history, e.stops) (by simp) ?_
  intro history t u move received _ ih hs
  rw [hs.cancelled_iff, ih, or_assoc]
  refine or_congr_right ?_
  simp only [List.mem_append, List.mem_singleton, or_and_right, exists_or, exists_eq_left]

/-- What a move does for one worker: it asks and sends as a step of its phase says, or nothing. -/
theorem Transition.worker (h : s.Transition move received t) {i : Nat} {w : Worker}
    (hw : s.workers[i]? = some w) :
    (∃ phase effect, w.phase.next s.chunk w.shard s.cancelled s.room = some (phase, effect) ∧
      t.workers[i]? = some { w with phase } ∧
      DecodeEvent.requested i ⟨s, move, received, t⟩ = w.phase.requests s.chunk w.shard ∧
      Sent.from_ i (DecodeEvent.emitted ⟨s, move, received, t⟩) = effect.items) ∨
    (t.workers[i]? = some w ∧ DecodeEvent.requested i ⟨s, move, received, t⟩ = [] ∧
      Sent.from_ i (DecodeEvent.emitted ⟨s, move, received, t⟩) = []) := by
  cases h with
  | @work j worker phase effect hj hn =>
    have hemitted : DecodeEvent.emitted ⟨s, .work j, none, (({ s with
        workers := s.workers.set j { worker with phase } } : DecodeStream).withEffect j effect)⟩ =
        effect.items.map (Sent.mk j) := by
      simp [DecodeEvent.emitted]
    have hworked := worked_of_next hj hn
    by_cases hij : j = i
    · subst hij
      obtain rfl := Option.some.inj (hj.symm.trans hw)
      refine .inl ⟨phase, effect, hn, hworked.after, ?_, ?_⟩
      · simp [DecodeEvent.requested, hw]
      · rw [hemitted, Sent.from_own]
    · refine .inr ⟨(hworked.others hij).trans hw, ?_, ?_⟩
      · simp [DecodeEvent.requested, hij]
      · rw [hemitted, Sent.from_other hij]
  | _ => exact .inr ⟨hw, rfl, rfl⟩

/-- What was asked and sent since the token was cancelled comes out of what was due and in hand. -/
theorem Course.spent (h : s.Course history t) (hx : s.cancelled = true) {i : Nat} {w : Worker}
    (hw : s.workers[i]? = some w) :
    ∃ phase, t.workers[i]? = some { w with phase } ∧
      (history.requested i).length + phase.due ≤ w.phase.due ∧
      Sent.from_ i history.emitted ++ phase.inHand s.chunk w.shard <+:
        w.phase.inHand s.chunk w.shard := by
  refine h.induct (P := fun history t => ∃ phase, t.workers[i]? = some { w with phase } ∧
    (history.requested i).length + phase.due ≤ w.phase.due ∧
    Sent.from_ i history.emitted ++ phase.inHand s.chunk w.shard <+:
      w.phase.inHand s.chunk w.shard) ⟨w.phase, hw, by simp [DecodeHistory.requested],
        List.prefix_refl _⟩ ?_
  rintro history t u move received hc ⟨phase, hphase, hdue, hhand⟩ hs
  have hcancelled : t.cancelled = true := hc.cancelled_iff.mpr (.inl hx)
  rcases hs.worker hphase with ⟨after, effect, hn, hafter, hasked, hsent⟩ | ⟨hstay, hasked, hsent⟩
  · rw [hcancelled, hc.chunk_eq] at hn
    have hspent := WorkerPhase.due_next hn
    refine ⟨after, hafter, ?_, ?_⟩
    · rw [DecodeHistory.requested_append, DecodeHistory.requested_single, hasked, hc.chunk_eq,
        List.length_append]
      dsimp only at hspent ⊢
      omega
    · rw [DecodeHistory.emitted_append, DecodeHistory.emitted_single, Sent.from_append, hsent,
        List.append_assoc]
      exact ((List.prefix_append_right_inj _).mpr (WorkerPhase.inHand_next hn)).trans hhand
  · refine ⟨phase, hstay, ?_, ?_⟩
    · rwa [DecodeHistory.requested_append, DecodeHistory.requested_single, hasked, List.append_nil]
    · rwa [DecodeHistory.emitted_append, DecodeHistory.emitted_single, Sent.from_append, hsent,
        List.append_nil]

variable {chunk : OpenChunk} {maxWorkers capacity : Positive}

/-- In every state, the workers are at records of their shards. -/
theorem Course.follows (h : (ofChunk chunk maxWorkers capacity).Course history t) {i : Nat}
    {w : Worker} (hw : t.workers[i]? = some w) : w.phase.Follows chunk w.shard := by
  refine h.induct (P := fun _ t => ∀ (i : Nat) (w : Worker), t.workers[i]? = some w →
    w.phase.Follows chunk w.shard) ?_ ?_ i w hw
  · intro i w hw
    simp only [ofChunk, List.getElem?_map, Option.map_eq_some_iff] at hw
    obtain ⟨shard, -, rfl⟩ := hw
    trivial
  · intro history t u move received hc ih hs j other hother
    have hlength : u.workers.length = t.workers.length := by
      have hshards := congrArg List.length hs.shards_eq
      rwa [List.length_map, List.length_map] at hshards
    obtain ⟨hlt, -⟩ := List.getElem?_eq_some_iff.mp hother
    have hbefore := List.getElem?_eq_getElem (hlength ▸ hlt)
    rcases hs.worker hbefore with ⟨phase, effect, hn, hafter, -⟩ | ⟨hstay, -⟩
    · rw [hc.chunk_eq] at hn
      obtain rfl := Option.some.inj (hafter.symm.trans hother)
      exact (ih j _ hbefore).next hn
    · obtain rfl := Option.some.inj (hstay.symm.trans hother)
      exact ih j _ hbefore

/-- In every course, the token is cancelled exactly if one of the moves that cancel it was made.
From then on each worker asks the source for at most one more read, and all that it still adds to
the output is left over from the one record of its shard that it had begun with. What it asks for is
what it reads. -/
theorem prompt_of_course (h : (ofChunk chunk maxWorkers capacity).Course before t) :
    chunk.ReadsAsRequested ∧
    (t.cancelled = true ↔ ∃ e ∈ before, e.stops) ∧
      (t.cancelled = true → ∀ {after u}, t.Course after u →
        ∀ (i : Nat) (worker : Worker), t.workers[i]? = some worker →
          (after.requested i).length ≤ 1 ∧
          (Sent.from_ i after.emitted = [] ∨ ∃ done record others apps,
            chunk.readRecords worker.shard = .ok (done ++ record :: others) ∧
              worker.phase.AtRecord chunk worker.shard record others apps ∧
              Sent.from_ i after.emitted <+: apps.map (DecodedAppearance.mk record.address))) := by
  refine ⟨chunk.readsAsRequested, ?_, fun hx after u hafter i worker hw => ?_⟩
  · rw [h.cancelled_iff]
    exact or_iff_right Bool.false_ne_true
  · obtain ⟨phase, -, hdue, hhand⟩ := hafter.spent hx hw
    have hone := worker.phase.due_le_one
    have hsent : Sent.from_ i after.emitted <+: worker.phase.inHand chunk worker.shard := by
      rw [h.chunk_eq] at hhand
      exact (List.prefix_append _ _).trans hhand
    refine ⟨by omega, ?_⟩
    rcases (h.follows hw).inHand_eq with hnone | ⟨done, record, others, apps, hrecords, hat, heq⟩
    · rw [hnone] at hsent
      exact .inl (List.prefix_nil.mp hsent)
    · exact .inr ⟨done, record, others, apps, hrecords, hat, heq ▸ hsent⟩

/-- The only worker has just begun with the first of two records when the token is cancelled. -/
def begunCourse : DecodeHistory × DecodeStream :=
  (ofChunk (shortChunk [⟨10, 0⟩, ⟨12, 5⟩, ⟨11, 3⟩]) ⟨1, Nat.one_pos⟩ ⟨1, Nat.one_pos⟩).follow
    (fun | 3 => .cancel | _ => .work 0) 4

/-- What comes after: the worker and the consumer take turns. -/
def begunCourseRest : DecodeHistory × DecodeStream := begunCourse.2.follow takeTurns 40

/-- The worker still reads the span of the record, and sends both of its appearances. -/
theorem prompt_of_begun_record :
    (∃ e ∈ begunCourse.1, e.stops) ∧
      begunCourseRest.1.requested 0 = [⟨100, 16⟩] ∧
      Sent.from_ 0 begunCourseRest.1.emitted = [⟨.ofNat 1, 10, 0⟩, ⟨.ofNat 1, 12, 5⟩] ∧
      (begunCourseRest.1.requested 0).length ≤ 1 ∧
      ∃ (record : AddressRecord) (apps : List Appearance), record.address = .ofNat 1 ∧
        Sent.from_ 0 begunCourseRest.1.emitted <+:
          apps.map (DecodedAppearance.mk record.address) := by
  have hcancelled : begunCourse.2.cancelled = true := by decide +kernel
  have hworker : 0 < begunCourse.2.workers.length := by decide +kernel
  have hsent : Sent.from_ 0 begunCourseRest.1.emitted =
      [⟨.ofNat 1, 10, 0⟩, ⟨.ofNat 1, 12, 5⟩] := by decide +kernel
  have hbegun : (ofChunk (shortChunk [⟨10, 0⟩, ⟨12, 5⟩, ⟨11, 3⟩]) ⟨1, Nat.one_pos⟩
      ⟨1, Nat.one_pos⟩).Course begunCourse.1 begunCourse.2 := course_follow _ _ 4
  have hrest : begunCourse.2.Course begunCourseRest.1 begunCourseRest.2 :=
    course_follow _ takeTurns 40
  obtain ⟨-, hiff, hprompt⟩ := prompt_of_course hbegun
  obtain ⟨hone, hrecord⟩ := hprompt hcancelled hrest 0 _ (List.getElem?_eq_getElem hworker)
  refine ⟨hiff.mp hcancelled, by decide +kernel, hsent, hone, ?_⟩
  rcases hrecord with hnone | ⟨done, record, others, apps, -, -, hprefix⟩
  · cases hsent.symm.trans hnone
  · refine ⟨record, apps, ?_, hprefix⟩
    have hmem := hprefix.mem (hsent ▸ List.mem_cons_self)
    obtain ⟨app, -, heq⟩ := List.mem_map.mp hmem
    exact congrArg DecodedAppearance.address heq

end DecodeStream

end AppearanceIndex
