import AppearanceIndex.Proofs.Ingest.Course

/-!
# What an ingest has delivered

`Ingest.Transition` lists what one move can do. Every move keeps `Ingest.Traced`: while the consumer
stays, what it took and what waits in the queue are together what the producer has produced; after
it left, what it took is a beginning of that.
-/

namespace AppearanceIndex

namespace Producer

/-- What is to be put into the queue, and what the producer does then. -/
def pending : Producer → Option (Delivery × Producer)
  | sending batch work chunks => some (.batch batch, .decoding work chunks)
  | completing batch chunks => some (.batch batch, .between chunks)
  | failing f => some (.failure f, .ended)
  | _ => none

/-- The producer may still read files. -/
def isReading : Producer → Bool
  | failing _ | ended => false
  | _ => true

theorem isReading_of_pending {producer next : Producer} {delivery : Delivery}
    (h : producer.pending = some (delivery, next)) (hn : next.isReading = true) :
    producer.isReading = true := by
  cases producer with
  | failing f =>
    cases h
    cases hn
  | ended => cases h
  | _ => rfl

end Producer

namespace Ingest

inductive Transition (s : Ingest) : IngestMove → Option Delivery → Ingest → Prop where
  | list (hp : s.producer = .listing) : Transition s .produce none s.listChunks
  | next {chunks : List ChunkEntry} (hp : s.producer = .between chunks) :
      Transition s .produce none { s with producer := .onNextChunk s.settings s.files chunks }
  | receive {work : ChunkInProgress} {chunks : List ChunkEntry} {move : DecodeMove}
      {outcome : Option Received × DecodeStream} (hm : move.disturbs = false)
      (hp : s.producer = .decoding work chunks)
      (hs : work.stream.step move = some outcome) :
      Transition s .produce none (s.afterReceive work chunks outcome)
  | send {delivery : Delivery} {next : Producer}
      (hp : s.producer.pending = some (delivery, next)) (ha : s.abandoned = false) :
      Transition s .produce none
        { s with queue := s.queue ++ [delivery], producer := next }
  | giveUp (ha : s.abandoned = true) : Transition s .produce none { s with producer := .ended }
  | record {chunk : ChunkEntry} {f : Failure} (hp : s.producer = .recording chunk f) :
      Transition s .produce none (s.recordFailure chunk f)
  | decode {work : ChunkInProgress} {chunks : List ChunkEntry} {move : DecodeMove}
      {stream : DecodeStream} (hm : move.disturbs = false)
      (hp : s.producer = .decoding work chunks)
      (hs : work.stream.step move = some (none, stream)) :
      Transition s (.decode move) none { s with producer := .decoding { work with stream } chunks }
  | decodeOn {batch : AppearanceBatch} {work : ChunkInProgress} {chunks : List ChunkEntry}
      {move : DecodeMove} {stream : DecodeStream} (hm : move.disturbs = false)
      (hp : s.producer = .sending batch work chunks)
      (hs : work.stream.step move = some (none, stream)) :
      Transition s (.decode move) none
        { s with producer := .sending batch { work with stream } chunks }
  | take {delivery : Delivery} {queue : List Delivery} (ha : s.abandoned = false)
      (hq : s.queue = delivery :: queue) : Transition s .receive (some delivery) { s with queue }
  | abandon : Transition s .abandon none { s with abandoned := true, queue := [] }

theorem transition_of_deliver {s t : Ingest} {delivery : Delivery} {next : Producer}
    (hp : s.producer.pending = some (delivery, next)) (h : s.deliver delivery next = some t) :
    s.Transition .produce none t := by
  unfold deliver at h
  by_cases ha : s.abandoned = true
  · rw [if_pos ha] at h
    cases h
    exact .giveUp ha
  · rw [if_neg ha] at h
    split at h
    · cases h
      exact .send hp (by simpa using ha)
    · cases h

theorem transition_of_produce {s t : Ingest} (h : s.produce = some t) :
    s.Transition .produce none t := by
  unfold produce at h
  cases hp : s.producer with
  | decoding work chunks =>
    simp only [hp, Option.map_eq_some_iff] at h
    obtain ⟨outcome, hs, rfl⟩ := h
    exact .receive (by split <;> rfl) hp hs
  | listing =>
    simp only [hp, produceOther] at h
    cases h
    exact .list hp
  | between chunks =>
    simp only [hp, produceOther] at h
    cases h
    exact .next hp
  | sending batch work chunks =>
    simp only [hp, produceOther] at h
    exact transition_of_deliver (by rw [hp]; rfl) h
  | completing batch chunks =>
    simp only [hp, produceOther] at h
    exact transition_of_deliver (by rw [hp]; rfl) h
  | recording chunk f =>
    simp only [hp, produceOther] at h
    cases h
    exact .record hp
  | failing f =>
    simp only [hp, produceOther] at h
    exact transition_of_deliver (by rw [hp]; rfl) h
  | ended =>
    simp only [hp, produceOther] at h
    cases h

theorem step_of_work {stream next : DecodeStream} {i : Nat} (h : stream.work i = some next) :
    stream.step (.work i) = some (none, next) := by
  show (stream.work i).map _ = _
  rw [h]
  rfl

theorem received_of_close {stream next : DecodeStream} {received : Option Received}
    (h : stream.step .close = some (received, next)) : received = none := by
  cases DecodeStream.transition_of_step h with
  | close => rfl

theorem transition_of_decodeMove {s t : Ingest} {move : DecodeMove}
    (h : s.decodeMove move = some t) : s.Transition (.decode move) none t := by
  unfold decodeMove at h
  split at h
  · next work chunks i hp =>
    obtain ⟨stream, hs, rfl⟩ := Option.map_eq_some_iff.mp h
    exact .decode rfl hp (step_of_work hs)
  · next work chunks hp =>
    obtain ⟨⟨received, stream⟩, hs, rfl⟩ := Option.map_eq_some_iff.mp h
    cases received_of_close hs
    exact .decode rfl hp hs
  · next batch work chunks i hp =>
    obtain ⟨stream, hs, rfl⟩ := Option.map_eq_some_iff.mp h
    exact .decodeOn rfl hp (step_of_work hs)
  · next batch work chunks hp =>
    obtain ⟨⟨received, stream⟩, hs, rfl⟩ := Option.map_eq_some_iff.mp h
    cases received_of_close hs
    exact .decodeOn rfl hp hs
  · cases h

theorem transition_of_step {s t : Ingest} {move : IngestMove} {delivery : Option Delivery}
    (h : s.step move = some (delivery, t)) : s.Transition move delivery t := by
  cases move with
  | produce =>
    obtain ⟨u, hu, heq⟩ := Option.map_eq_some_iff.mp h
    cases heq
    exact transition_of_produce hu
  | decode move =>
    obtain ⟨u, hu, heq⟩ := Option.map_eq_some_iff.mp h
    cases heq
    exact transition_of_decodeMove hu
  | receive =>
    unfold step at h
    simp only at h
    split at h
    · next ha hq =>
      cases h
      exact .take ha hq
    · cases h
  | abandon =>
    cases h
    exact .abandon

/-! ## The trace -/

/-- The deliveries of a course of `s` that has come to `t`. -/
structure Traced (s : Ingest) (deliveries : List Delivery) (t : Ingest) : Prop where
  settings : t.settings = s.settings
  directory : t.directory = s.directory
  log : t.log = s.log
  files : t.abandoned = false → t.producer.isReading = true → t.files = s.files
  produced : t.abandoned = false → s.Produced (deliveries ++ t.queue) t.producer
  kept : t.abandoned = true → t.queue = [] ∧
    ∃ produced producer, s.Produced produced producer ∧ deliveries <+: produced

theorem traced_new (settings : IngestSettings) (directory : Path) (log : Option StatusLog)
    (files : FileStore) : (new settings directory log files).Traced []
      (new settings directory log files) where
  settings := rfl
  directory := rfl
  log := rfl
  files := fun _ _ => rfl
  produced := fun _ => .listing
  kept := fun ha => by cases ha

variable {s t u : Ingest} {deliveries : List Delivery}

/-- Whatever the producer's next state is, an ingest that was left keeps what was taken. -/
theorem Traced.left (h : s.Traced deliveries t) (ha : t.abandoned = true)
    (hs : u.settings = t.settings) (hd : u.directory = t.directory) (hl : u.log = t.log)
    (hq : u.queue = t.queue) (hu : u.abandoned = t.abandoned) : s.Traced deliveries u where
  settings := hs.trans h.settings
  directory := hd.trans h.directory
  log := hl.trans h.log
  files := fun hn => by rw [hu, ha] at hn; cases hn
  produced := fun hn => by rw [hu, ha] at hn; cases hn
  kept := fun _ => ⟨hq.trans (h.kept ha).1, (h.kept ha).2⟩

theorem produced_listChunks (h : s.Traced deliveries t) (ha : t.abandoned = false)
    (hp : t.producer = .listing) :
    s.Produced (deliveries ++ t.listChunks.queue) t.listChunks.producer := by
  have hfiles := h.files ha (by rw [hp]; rfl)
  have hproduced := h.produced ha
  rw [hp] at hproduced
  generalize hds : deliveries ++ t.queue = produced at hproduced
  cases hproduced
  unfold listChunks
  rw [h.directory, h.settings, hfiles]
  cases hlist : (Activity.listChunks s.directory.text).around
      (ChunkEntry.list s.files s.directory s.settings.window) with
  | error f =>
    rw [show deliveries ++ t.queue = [] from hds]
    exact .unlisted hlist
  | ok chunks =>
    have hnone : s.Completed [] chunks := ⟨Activity.eq_of_around hlist, by simp⟩
    rw [show deliveries ++ t.queue = [] from hds]
    exact .between hnone

theorem produced_onNextChunk {done : List (ChunkEntry × List AppearanceBatch)}
    {left : List ChunkEntry} (h : s.Completed done left) :
    s.Produced (deliveriesOf done) (.onNextChunk s.settings s.files left) := by
  cases left with
  | nil => exact .ended h
  | cons chunk left =>
    cases hstart : ChunkInProgress.start s.settings s.files chunk with
    | refused f =>
      simp only [Producer.onNextChunk, hstart]
      simpa [asDeliveries] using Produced.recording h (.refused hstart)
    | aborted =>
      simp only [Producer.onNextChunk, hstart]
      exact .aborted h hstart
    | started stream =>
      simp only [Producer.onNextChunk, hstart]
      simpa [asDeliveries] using Produced.decoding h (.begin hstart)
        (chunk.partlyBatched_nil s.settings.batchSize.property)

theorem produced_afterReceive {produced : List Delivery} {work : ChunkInProgress}
    {chunks : List ChunkEntry} (h : s.Produced produced (.decoding work chunks))
    (ht : t.settings = s.settings) {move : DecodeMove} (hm : move.disturbs = false)
    {outcome : Option Received × DecodeStream} (hs : work.stream.step move = some outcome) :
    s.Produced produced (t.afterReceive work chunks outcome).producer := by
  obtain ⟨received, stream⟩ := outcome
  cases received with
  | none =>
    cases h with
    | decoding hc hr hb => exact .decoding hc (hr.move hm hs) hb
  | some received =>
    show s.Produced produced
      (.onReceived t.settings.batchSize.val { work with stream } chunks received)
    rw [ht]
    cases h with
    | decoding hc hr hb => exact produced_onReceived hc hr hb hm hs

theorem listChunks_frame (t : Ingest) : ∃ producer, t.listChunks = { t with producer } := by
  unfold listChunks
  split <;> exact ⟨_, rfl⟩

theorem afterReceive_frame (t : Ingest) (work : ChunkInProgress) (chunks : List ChunkEntry)
    (outcome : Option Received × DecodeStream) :
    ∃ producer, t.afterReceive work chunks outcome = { t with producer } := by
  obtain ⟨received, stream⟩ := outcome
  cases received <;> exact ⟨_, rfl⟩

theorem produced_send {produced : List Delivery} {producer next : Producer} {delivery : Delivery}
    (h : s.Produced produced producer) (hp : producer.pending = some (delivery, next)) :
    s.Produced (produced ++ [delivery]) next := by
  cases h with
  | @sending done left work items batches batch h hr hb =>
    cases hp
    simpa [asDeliveries] using Produced.decoding h hr hb
  | @completing done left chunk batches batch h hc =>
    cases hp
    simpa [asDeliveries] using Produced.between (h.snoc hc)
  | unlisted h =>
    cases hp
    exact .failed (.unlisted h)
  | failing h hf hg =>
    cases hp
    exact .failed (.failing h hf hg)
  | _ => cases hp

theorem recordFailure_producer (hs : t.log = s.log) (hf : t.files = s.files) (chunk : ChunkEntry)
    (f : Failure) : (t.recordFailure chunk f).producer = (s.recordFailure chunk f).producer := by
  unfold recordFailure
  rw [hs, hf]
  cases s.log with
  | none => rfl
  | some log =>
    simp only
    split <;> rfl

theorem recordFailure_frame (t : Ingest) (chunk : ChunkEntry) (f : Failure) :
    ∃ producer files, t.recordFailure chunk f = { t with producer, files } := by
  unfold recordFailure
  cases t.log with
  | none => exact ⟨_, _, rfl⟩
  | some log =>
    simp only
    split <;> exact ⟨_, _, rfl⟩

theorem exists_failing (t : Ingest) (chunk : ChunkEntry) (f : Failure) :
    ∃ g, (t.recordFailure chunk f).producer = .failing g := by
  unfold recordFailure
  cases t.log with
  | none => exact ⟨_, rfl⟩
  | some log =>
    simp only
    split <;> exact ⟨_, rfl⟩

/-- While the consumer stays, the producer's move keeps the account of what was produced. -/
theorem produced_of_transition (h : s.Traced deliveries t) (ha : t.abandoned = false)
    {move : IngestMove} {delivery : Option Delivery} (ht : t.Transition move delivery u)
    (hm : move ≠ .abandon) :
    s.Produced (deliveries ++ delivery.toList ++ u.queue) u.producer ∧
      (u.producer.isReading = true → u.files = s.files) := by
  have hfiles := h.files ha
  have hproduced := h.produced ha
  cases ht with
  | list hp =>
    refine ⟨by simpa using produced_listChunks h ha hp, fun _ => ?_⟩
    have hsame : t.listChunks.files = t.files := by
      unfold listChunks
      split <;> rfl
    exact hsame.trans (hfiles (by rw [hp]; rfl))
  | @next chunks hp =>
    have hread : t.files = s.files := hfiles (by rw [hp]; rfl)
    refine ⟨?_, fun _ => hread⟩
    rw [hp] at hproduced
    simp only [Option.toList_none, List.append_nil, h.settings, hread]
    generalize deliveries ++ t.queue = produced at hproduced ⊢
    cases hproduced with
    | between hc => exact produced_onNextChunk hc
  | @receive work chunks move outcome hd hp hs =>
    have hread : t.files = s.files := hfiles (by rw [hp]; rfl)
    rw [hp] at hproduced
    have hnext := produced_afterReceive hproduced h.settings hd hs
    obtain ⟨producer, hframe⟩ := t.afterReceive_frame work chunks outcome
    rw [hframe] at hnext ⊢
    rw [Option.toList_none, List.append_nil]
    exact ⟨hnext, fun _ => hread⟩
  | @send delivery next hp _ =>
    refine ⟨?_, fun _ => ?_⟩
    · simpa using produced_send hproduced hp
    · exact hfiles (Producer.isReading_of_pending hp ‹_›)
  | giveUp hn =>
    rw [ha] at hn
    cases hn
  | @record chunk f hp =>
    have hread : t.files = s.files := hfiles (by rw [hp]; rfl)
    obtain ⟨g, hg⟩ := t.exists_failing chunk f
    obtain ⟨producer, files, hframe⟩ := t.recordFailure_frame chunk f
    rw [hg, show (t.recordFailure chunk f).queue = t.queue by rw [hframe]]
    refine ⟨?_, fun hn => by cases hn⟩
    rw [recordFailure_producer h.log hread] at hg
    rw [hp] at hproduced
    simp only [Option.toList_none, List.append_nil]
    generalize deliveries ++ t.queue = produced at hproduced ⊢
    cases hproduced with
    | recording hc hf => exact .failing hc hf hg
  | @decode work chunks move stream hd hp hs =>
    refine ⟨?_, fun _ => hfiles (by rw [hp]; rfl)⟩
    rw [hp] at hproduced
    simp only [Option.toList_none, List.append_nil]
    generalize deliveries ++ t.queue = produced at hproduced ⊢
    cases hproduced with
    | decoding hc hr hb => exact .decoding hc (hr.move hd hs) hb
  | @decodeOn batch work chunks move stream hd hp hs =>
    refine ⟨?_, fun _ => hfiles (by rw [hp]; rfl)⟩
    rw [hp] at hproduced
    simp only [Option.toList_none, List.append_nil]
    generalize deliveries ++ t.queue = produced at hproduced ⊢
    cases hproduced with
    | sending hc hr hb => exact .sending hc (hr.move hd hs) hb
  | @take delivery queue _ hq =>
    refine ⟨?_, hfiles⟩
    rw [hq] at hproduced
    simpa using hproduced
  | abandon => exact absurd rfl hm

/-- What a move leaves as it is. -/
theorem Transition.frame {move : IngestMove} {delivery : Option Delivery}
    (h : t.Transition move delivery u) :
    u.settings = t.settings ∧ u.directory = t.directory ∧ u.log = t.log ∧
      (move ≠ .abandon → u.abandoned = t.abandoned) := by
  cases h with
  | list =>
    unfold listChunks
    split <;> exact ⟨rfl, rfl, rfl, fun _ => rfl⟩
  | @receive work chunks _ outcome =>
    obtain ⟨producer, hframe⟩ := t.afterReceive_frame work chunks outcome
    rw [hframe]
    exact ⟨rfl, rfl, rfl, fun _ => rfl⟩
  | @record chunk f =>
    obtain ⟨producer, files, hframe⟩ := t.recordFailure_frame chunk f
    rw [hframe]
    exact ⟨rfl, rfl, rfl, fun _ => rfl⟩
  | abandon => exact ⟨rfl, rfl, rfl, fun hn => absurd rfl hn⟩
  | _ => exact ⟨rfl, rfl, rfl, fun _ => rfl⟩

/-- A consumer that is there after a move was there before it. -/
theorem Transition.stays {move : IngestMove} {delivery : Option Delivery}
    (h : t.Transition move delivery u) (ha : u.abandoned = false) :
    move ≠ .abandon ∧ t.abandoned = false := by
  have hm : move ≠ .abandon := by
    rintro rfl
    cases h
    cases ha
  exact ⟨hm, (h.frame.2.2.2 hm).symm.trans ha⟩

/-- Only the move that records a failed chunk changes files. -/
theorem Transition.files_eq {move : IngestMove} {delivery : Option Delivery}
    (h : t.Transition move delivery u)
    (hr : ∀ chunk f, move = .produce → t.producer ≠ .recording chunk f) : u.files = t.files := by
  cases h with
  | list =>
    obtain ⟨producer, hframe⟩ := t.listChunks_frame
    rw [hframe]
  | @receive work chunks _ outcome =>
    obtain ⟨producer, hframe⟩ := t.afterReceive_frame work chunks outcome
    rw [hframe]
  | record hp => exact absurd hp (hr _ _ rfl)
  | _ => rfl

/-- Nothing gets into the queue, and nothing out of it, when the consumer has left. -/
theorem Transition.queue_eq {move : IngestMove} {delivery : Option Delivery}
    (h : t.Transition move delivery u) (ha : t.abandoned = true) (hq : t.queue = []) :
    u.queue = [] ∧ delivery = none := by
  cases h with
  | list =>
    refine ⟨?_, rfl⟩
    rw [← hq]
    unfold listChunks
    split <;> rfl
  | @receive work chunks _ outcome =>
    obtain ⟨producer, hframe⟩ := t.afterReceive_frame work chunks outcome
    rw [hframe]
    exact ⟨hq, rfl⟩
  | send _ hn | take hn _ =>
    rw [ha] at hn
    cases hn
  | @record chunk f =>
    obtain ⟨producer, files, hframe⟩ := t.recordFailure_frame chunk f
    rw [hframe]
    exact ⟨hq, rfl⟩
  | abandon => exact ⟨rfl, rfl⟩
  | _ => exact ⟨hq, rfl⟩

theorem Traced.step (h : s.Traced deliveries t) {move : IngestMove} {delivery : Option Delivery}
    (ht : t.Transition move delivery u) : s.Traced (deliveries ++ delivery.toList) u := by
  obtain ⟨hs, hd, hl, hu⟩ := ht.frame
  cases ha : t.abandoned with
  | true =>
    obtain ⟨hq, hkept⟩ := h.kept ha
    obtain ⟨hq', rfl⟩ := ht.queue_eq ha hq
    rw [Option.toList_none, List.append_nil]
    refine h.left ha hs hd hl (hq'.trans hq.symm) ?_
    by_cases hm : move = .abandon
    · subst hm
      cases ht with
      | abandon => exact ha.symm
    · exact hu hm
  | false =>
    by_cases hm : move = .abandon
    · subst hm
      cases ht with
      | abandon =>
        have hproduced := h.produced ha
        refine ⟨hs.trans h.settings, hd.trans h.directory, hl.trans h.log, ?_, ?_, ?_⟩
        · intro hn
          cases hn
        · intro hn
          cases hn
        · intro _
          exact ⟨rfl, _, _, hproduced, by simp⟩
    · obtain ⟨hp, hf⟩ := produced_of_transition h ha ht hm
      refine ⟨hs.trans h.settings, hd.trans h.directory, hl.trans h.log, fun _ => hf, fun _ => hp,
        ?_⟩
      intro hn
      rw [hu hm, ha] at hn
      cases hn

theorem Course.traced {settings : IngestSettings} {directory : Path} {log : Option StatusLog}
    {files : FileStore} (h : (new settings directory log files).Course deliveries t) :
    (new settings directory log files).Traced deliveries t := by
  induction h with
  | start => exact traced_new settings directory log files
  | step _ hs ih => exact ih.step (transition_of_step hs)

end Ingest

end AppearanceIndex
