import AppearanceIndex.Proofs.Ingest.Quiet

/-!
# The work on one chunk

From opening a chunk file until it is done with it, the producer receives from one decode and sends
batches of one chunk. `Ingest.WorksOn` is such a stretch of an ingest, and begins in any state in
which the chunk is the next one. `Ingest.Stage` tells for each state of the producer what it has
received and sent by then. A stretch whose consumer stays can be gone on with until the producer is
done with the chunk (`Ingest.WorksOn.exists_done`).
-/

namespace AppearanceIndex

namespace Producer

/-- The producer is receiving from a decode, or has a batch of it to send. -/
def isAtWork : Producer → Bool
  | decoding _ _ | sending _ _ _ | completing _ _ => true
  | _ => false

end Producer

namespace Ingest

/-- What the producer receives from its decode in the move. -/
def Event.received? (e : Event) : Option Received :=
  match e.move, e.before.producer with
  | .produce, .decoding work _ =>
    (work.stream.step (if work.stream.checked then .take else .poll)).bind Prod.fst
  | _, _ => none

/-- What the producer received from its decodes, in that order. -/
def receivedIn (events : List Event) : List Received := events.filterMap Event.received?

@[simp] theorem receivedIn_append (events more : List Event) :
    receivedIn (events ++ more) = receivedIn events ++ receivedIn more := List.filterMap_append

@[simp] theorem receivedIn_single (e : Event) : receivedIn [e] = e.received?.toList := by
  cases h : e.received? <;> simp [receivedIn, h]

variable {s t u : Ingest} {chunk : ChunkEntry} {chunks opened : List ChunkEntry}
  {events more : List Event} {received : List Received} {sent : List Delivery}

/-- Moves that open the next chunk file and no other, while the consumer stays. -/
structure WorksOn (s : Ingest) (chunk : ChunkEntry) (chunks : List ChunkEntry)
    (events : List Event) (t : Ingest) : Prop where
  next : s.producer = .between (chunk :: chunks)
  trail : Trail Ingest.step s events t
  opened : openedChunks events = [chunk]
  stayed : t.abandoned = false

/-- What was received is as many appearances as the chunk file declares, and the end. -/
def Clean (s : Ingest) (chunk : ChunkEntry) (received : List Received) : Prop :=
  ∃ (first : DecodeStream) (items : List DecodedAppearance),
    ChunkInProgress.start s.settings s.files chunk = .started first ∧
      received = items.map .appearance ++ [.finished] ∧
      items.length = first.chunk.header.appearanceCount.toNat

/-- What was opened, received and sent in the work on a chunk when the producer has come to a
state. -/
inductive Stage (s : Ingest) (chunk : ChunkEntry) (chunks : List ChunkEntry) :
    List ChunkEntry → List Received → List Delivery → Producer → Prop where
  | ahead : Stage s chunk chunks [] [] [] (.between (chunk :: chunks))
  | decoding {work : ChunkInProgress} {items : List DecodedAppearance}
      {batches : List AppearanceBatch} (hw : work.chunk = chunk) (hr : s.Receiving work items)
      (hb : chunk.PartlyBatched s.settings.batchSize.val items batches work.collected.reverse) :
      Stage s chunk chunks [chunk] (items.map .appearance) (asDeliveries batches)
        (.decoding work chunks)
  | sending {work : ChunkInProgress} {items : List DecodedAppearance}
      {batches : List AppearanceBatch} {batch : AppearanceBatch} (hw : work.chunk = chunk)
      (hr : s.Receiving work items)
      (hb : chunk.PartlyBatched s.settings.batchSize.val items (batches ++ [batch])
        work.collected.reverse) :
      Stage s chunk chunks [chunk] (items.map .appearance) (asDeliveries batches)
        (.sending batch work chunks)
  | completing {items : List DecodedAppearance} {batches : List AppearanceBatch}
      {batch : AppearanceBatch} (hd : s.Decodes chunk items items.length .finished)
      (hb : chunk.Batched s.settings.batchSize.val items (batches ++ [batch])) :
      Stage s chunk chunks [chunk] (items.map .appearance ++ [.finished]) (asDeliveries batches)
        (.completing batch chunks)
  | sent {items : List DecodedAppearance} {batches : List AppearanceBatch}
      (hd : s.Decodes chunk items items.length .finished)
      (hb : chunk.Batched s.settings.batchSize.val items batches) :
      Stage s chunk chunks [chunk] (items.map .appearance ++ [.finished]) (asDeliveries batches)
        (.between chunks)
  | ended {items : List DecodedAppearance} {batches : List AppearanceBatch}
      (hd : s.Decodes chunk items items.length .finished)
      (hb : chunk.Batched s.settings.batchSize.val items batches) (hn : chunks = []) :
      Stage s chunk chunks [chunk] (items.map .appearance ++ [.finished]) (asDeliveries batches)
        .ended
  | recording {received : List Received} {batches : List AppearanceBatch} {f : Failure}
      (hf : s.Fails chunk batches f) (hc : ¬ s.Clean chunk received) :
      Stage s chunk chunks [chunk] received (asDeliveries batches) (.recording chunk f)
  | failing {received : List Received} {batches : List AppearanceBatch} {f g : Failure}
      (hf : s.Fails chunk batches f) (hc : ¬ s.Clean chunk received) :
      Stage s chunk chunks [chunk] received (asDeliveries batches) (.failing g)
  | failed {received : List Received} {batches : List AppearanceBatch} {f g : Failure}
      (hf : s.Fails chunk batches f) (hc : ¬ s.Clean chunk received) :
      Stage s chunk chunks [chunk] received (asDeliveries batches ++ [.failure g]) .ended
  | aborted (ha : ChunkInProgress.start s.settings s.files chunk = .aborted) :
      Stage s chunk chunks [chunk] [] [] .ended

/-! ## What moves receive and open -/

theorem opened?_of_move {e : Event} (h : e.move ≠ .produce) : e.opened? = none := by
  unfold Event.opened?
  split
  · next hm _ => exact absurd hm h
  · rfl

theorem received?_of_move {e : Event} (h : e.move ≠ .produce) : e.received? = none := by
  unfold Event.received?
  split
  · next hm _ => exact absurd hm h
  · rfl

theorem received?_eq_none {e : Event}
    (h : ∀ work chunks, e.before.producer ≠ .decoding work chunks) : e.received? = none := by
  unfold Event.received?
  split
  · next hd => exact absurd hd (h _ _)
  · rfl

/-- A producer that is decoding takes its turn as the consumer of the decode. -/
theorem outcome_of_produce {work : ChunkInProgress} (hp : t.producer = .decoding work chunks)
    {delivery : Option Delivery} (h : t.step .produce = some (delivery, u)) :
    ∃ outcome, work.stream.step (if work.stream.checked then .take else .poll) = some outcome ∧
      delivery = none ∧ u = t.afterReceive work chunks outcome := by
  simp only [step, produce, hp, Option.map_map, Option.map_eq_some_iff] at h
  obtain ⟨outcome, hs, heq⟩ := h
  cases heq
  exact ⟨outcome, hs, rfl, rfl⟩

/-! ## The producer's moves -/

theorem not_clean_nil : ¬ s.Clean chunk [] := by
  rintro ⟨first, items, -, heq, -⟩
  simp at heq

theorem not_clean_of_failure (items : List DecodedAppearance) (f : Failure) :
    ¬ s.Clean chunk (items.map .appearance ++ [.failure f]) := by
  rintro ⟨first, others, -, heq, -⟩
  simpa using (List.append_inj' heq rfl).2

/-- A decode whose end is received behind other than the declared number is not clean. -/
theorem not_clean_of_miscounted {items : List DecodedAppearance} {declared : Nat}
    (h : s.Decodes chunk items declared .finished) (hn : declared ≠ items.length) :
    ¬ s.Clean chunk (items.map .appearance ++ [.finished]) := by
  rintro ⟨first, others, hstart, heq, hcount⟩
  obtain ⟨first', history, stream, hstart', -, -, -, hdeclared⟩ := h
  rw [hstart, DecodeStart.started.injEq] at hstart'
  subst hstart'
  have hsame : items.length = others.length := by
    simpa using congrArg List.length heq
  exact hn (by rw [hdeclared, hsame, hcount])

theorem Stage.of_next : s.Stage chunk chunks [chunk] [] []
    (.onNextChunk s.settings s.files (chunk :: chunks)) := by
  simp only [Producer.onNextChunk]
  cases hstart : ChunkInProgress.start s.settings s.files chunk with
  | refused f => exact .recording (.refused hstart) not_clean_nil
  | aborted => exact .aborted hstart
  | started stream =>
    exact .decoding rfl (.begin hstart) (chunk.partlyBatched_nil s.settings.batchSize.property)

/-- What the producer does with what it received. -/
theorem Stage.of_reacts {items : List DecodedAppearance} {batches : List AppearanceBatch}
    {received : Received} {producer : Producer}
    (h : s.Reacts chunk items batches chunks received producer) :
    s.Stage chunk chunks [chunk] (items.map .appearance ++ [received]) (asDeliveries batches)
      producer := by
  cases h with
  | @collected work d hw hr hb =>
    have hnext : s.Stage chunk chunks _ _ _ (.decoding work chunks) := .decoding hw hr hb
    simpa using hnext
  | @filled work d batch hw hr hb =>
    have hnext : s.Stage chunk chunks _ _ _ (.sending batch work chunks) := .sending hw hr hb
    simpa using hnext
  | completed hd hb => exact .completing hd hb
  | miscounted hd hn hf => exact .recording hf (not_clean_of_miscounted hd hn)
  | failed hf => exact .recording hf (not_clean_of_failure items _)

theorem Stage.send {producer next : Producer} {delivery : Delivery}
    (h : s.Stage chunk chunks opened received sent producer)
    (hp : producer.pending = some (delivery, next)) :
    s.Stage chunk chunks opened received (sent ++ [delivery]) next := by
  cases h with
  | @sending work items _ _ hw hr hb =>
    cases hp
    have hnext : s.Stage chunk chunks _ _ _ (.decoding work chunks) := .decoding hw hr hb
    simpa [asDeliveries] using hnext
  | completing hd hb =>
    cases hp
    have hnext : s.Stage chunk chunks _ _ _ (.between chunks) := .sent hd hb
    simpa [asDeliveries] using hnext
  | failing hf hc =>
    cases hp
    exact .failed hf hc
  | _ => cases hp

theorem Stage.record {failed : ChunkEntry} {f g : Failure}
    (h : s.Stage chunk chunks opened received sent (.recording failed f)) :
    s.Stage chunk chunks opened received sent (.failing g) := by
  cases h with
  | recording hf hc => exact .failing hf hc

/-- A move of the decode under way that is not its consumer's. -/
theorem Stage.decode {work : ChunkInProgress} {left : List ChunkEntry} {stream : DecodeStream}
    {move : DecodeMove}
    (h : s.Stage chunk chunks opened received sent (.decoding work left))
    (hm : move.disturbs = false) (hs : work.stream.step move = some (none, stream)) :
    s.Stage chunk chunks opened received sent (.decoding { work with stream } left) := by
  cases h with
  | decoding hw hr hb => exact .decoding hw (hr.move hm hs) hb

theorem Stage.decodeOn {batch : AppearanceBatch} {work : ChunkInProgress}
    {left : List ChunkEntry} {stream : DecodeStream} {move : DecodeMove}
    (h : s.Stage chunk chunks opened received sent (.sending batch work left))
    (hm : move.disturbs = false) (hs : work.stream.step move = some (none, stream)) :
    s.Stage chunk chunks opened received sent (.sending batch { work with stream } left) := by
  cases h with
  | sending hw hr hb => exact .sending hw (hr.move hm hs) hb

/-- The producer's turn as the consumer of its decode. -/
theorem Stage.receive {work : ChunkInProgress} {left : List ChunkEntry} {move : DecodeMove}
    {outcome : Option Received × DecodeStream} (hsettings : t.settings = s.settings)
    (h : s.Stage chunk chunks opened received sent (.decoding work left))
    (hm : move.disturbs = false) (hs : work.stream.step move = some outcome) :
    s.Stage chunk chunks opened (received ++ outcome.1.toList) sent
      (t.afterReceive work left outcome).producer := by
  obtain ⟨item, stream⟩ := outcome
  cases item with
  | none =>
    rw [Option.toList_none, List.append_nil]
    exact h.decode hm hs
  | some item =>
    show s.Stage chunk chunks opened (received ++ [item]) sent
      (.onReceived t.settings.batchSize.val { work with stream } left item)
    rw [hsettings]
    cases h with
    | decoding hw hr hb =>
      subst hw
      exact .of_reacts (reacts_onReceived chunks hr hb hm hs)

/-- Going on to the next chunk, if that opens no other. -/
theorem Stage.next {left : List ChunkEntry} {files : FileStore}
    (h : s.Stage chunk chunks opened received sent (.between left))
    (hfiles : opened = [] → files = s.files) (ho : opened ++ left.head?.toList <+: [chunk]) :
    s.Stage chunk chunks (opened ++ left.head?.toList) received sent
      (.onNextChunk s.settings files left) := by
  cases h with
  | ahead =>
    rw [hfiles rfl]
    exact .of_next
  | sent hd hb =>
    cases chunks with
    | nil => exact .ended hd hb rfl
    | cons other left => simpa using ho.length_le

/-- One move in the work on a chunk, if it opens no other. -/
theorem Stage.step {move : IngestMove} {delivery : Option Delivery}
    (h : s.Stage chunk chunks opened received sent t.producer)
    (hsettings : t.settings = s.settings) (hfiles : opened = [] → t.files = s.files)
    (ha : t.abandoned = false) (hs : t.step move = some (delivery, u)) (hm : move ≠ .abandon)
    (ho : opened ++ (Event.opened? ⟨t, move, delivery, u⟩).toList <+: [chunk]) :
    ∃ more, delivery.toList ++ u.queue = t.queue ++ more ∧
      s.Stage chunk chunks (opened ++ (Event.opened? ⟨t, move, delivery, u⟩).toList)
        (received ++ (Event.received? ⟨t, move, delivery, u⟩).toList) (sent ++ more)
        u.producer := by
  generalize hopened : Event.opened? ⟨t, move, delivery, u⟩ = next at ho ⊢
  generalize hreceived : Event.received? ⟨t, move, delivery, u⟩ = item
  have hnone : move ≠ .produce → next = none ∧ item = none := fun hn =>
    ⟨hopened.symm.trans (opened?_of_move hn), hreceived.symm.trans (received?_of_move hn)⟩
  simp only [Event.opened?, Event.received?] at hopened hreceived
  cases transition_of_step hs with
  | list hl =>
    rw [hl] at h
    cases h
  | @next left hl =>
    rw [hl] at h
    simp only [hl] at hreceived
    have hnext : left.head? = next := by
      rw [← hopened, hl]
      cases left <;> rfl
    subst hreceived hnext
    refine ⟨[], by simp, ?_⟩
    simpa [hsettings] using h.next hfiles ho
  | @receive work left _ outcome' _ hl _ =>
    -- whether the errors or the output are looked at is read off the move itself
    obtain ⟨outcome, hturn, -, heq⟩ := outcome_of_produce hl hs
    obtain ⟨producer, hframe⟩ := t.afterReceive_frame work left outcome
    rw [hl] at h
    simp only [hl, hturn, Option.bind_some] at hopened hreceived
    subst hopened hreceived
    rw [heq, show (t.afterReceive work left outcome).queue = t.queue by rw [hframe]]
    refine ⟨[], by simp, ?_⟩
    simpa using h.receive hsettings (by split <;> rfl) hturn
  | @send delivery producer hl _ =>
    have hquiet : next = none ∧ item = none := by
      rw [← hopened, ← hreceived]
      cases hp : t.producer with
      | between | decoding => rw [hp] at hl; cases hl
      | _ => exact ⟨rfl, rfl⟩
    obtain ⟨rfl, rfl⟩ := hquiet
    exact ⟨[delivery], rfl, by simpa using h.send hl⟩
  | giveUp hn =>
    rw [ha] at hn
    cases hn
  | @record failed f hl =>
    obtain ⟨g, hg⟩ := t.exists_failing failed f
    obtain ⟨producer, files, hframe⟩ := t.recordFailure_frame failed f
    rw [hl] at h
    simp only [hl] at hopened hreceived
    subst hopened hreceived
    rw [hg, show (t.recordFailure failed f).queue = t.queue by rw [hframe]]
    exact ⟨[], by simp, by simpa using h.record⟩
  | decode hd hl hmove =>
    obtain ⟨rfl, rfl⟩ := hnone (by simp)
    rw [hl] at h
    exact ⟨[], by simp, by simpa using h.decode hd hmove⟩
  | decodeOn hd hl hmove =>
    obtain ⟨rfl, rfl⟩ := hnone (by simp)
    rw [hl] at h
    exact ⟨[], by simp, by simpa using h.decodeOn hd hmove⟩
  | take _ hq =>
    obtain ⟨rfl, rfl⟩ := hnone (by simp)
    exact ⟨[], by simp [hq], by simpa using h⟩
  | abandon => exact absurd rfl hm

/-- In every state of the work on a chunk, what was sent is what was taken or waits in the queue
behind what had been there before. -/
theorem stage_of_trail (hnext : s.producer = .between (chunk :: chunks))
    (h : Trail Ingest.step s events t) (ho : openedChunks events <+: [chunk])
    (ha : t.abandoned = false) :
    (∃ sent, Trail.outputs events ++ t.queue = s.queue ++ sent ∧
      s.Stage chunk chunks (openedChunks events) (receivedIn events) sent t.producer) ∧
    t.settings = s.settings ∧ (openedChunks events = [] → t.files = s.files) := by
  induction h with
  | start =>
    refine ⟨⟨[], (List.append_nil _).symm, ?_⟩, rfl, fun _ => rfl⟩
    rw [hnext]
    exact .ahead
  | @step events t u move delivery htrail hs ih =>
    have ht := transition_of_step hs
    obtain ⟨hm, hat⟩ := ht.stays ha
    rw [openedChunks_append, openedChunks_single] at ho
    obtain ⟨⟨sent, hqueue, hstage⟩, hsettings, hfiles⟩ :=
      ih ((List.prefix_append _ _).trans ho) hat
    obtain ⟨more, hmore, hu⟩ := hstage.step hsettings hfiles hat hs hm ho
    refine ⟨⟨sent ++ more, ?_, ?_⟩, ht.frame.1.trans hsettings, fun hnone => ?_⟩
    · rw [Trail.outputs_append, Trail.outputs_single, List.append_assoc, hmore,
        ← List.append_assoc, hqueue, List.append_assoc]
    · simpa using hu
    · -- nothing is opened yet, so nothing has failed
      rw [openedChunks_append, List.append_eq_nil_iff] at hnone
      rw [hnone.1] at hstage
      refine (ht.files_eq fun failed f _ hrecording => ?_).trans (hfiles hnone.1)
      rw [hrecording] at hstage
      generalize receivedIn events = received at hstage
      cases hstage

theorem WorksOn.stage (h : s.WorksOn chunk chunks events t) :
    ∃ sent, Trail.outputs events ++ t.queue = s.queue ++ sent ∧
      s.Stage chunk chunks [chunk] (receivedIn events) sent t.producer := by
  obtain ⟨hsent, -, -⟩ := stage_of_trail h.next h.trail (h.opened ▸ List.prefix_rfl) h.stayed
  rwa [h.opened] at hsent

theorem WorksOn.trans (h : s.WorksOn chunk chunks events t) (hmore : Trail Ingest.step t more u)
    (ho : openedChunks more = []) (ha : u.abandoned = false) :
    s.WorksOn chunk chunks (events ++ more) u where
  next := h.next
  trail := h.trail.trans hmore
  opened := by rw [openedChunks_append, h.opened, ho, List.append_nil]
  stayed := ha

/-! ## Coming to an end -/

theorem Stage.ready {producer : Producer}
    (h : s.Stage chunk chunks opened received sent producer) : producer.IsReady := by
  cases h with
  | decoding _ hr | sending _ hr => exact hr.ready
  | _ => exact trivial

/-- Moves that lead away from the work on a chunk can be stopped as soon as it is done. -/
theorem work_or_done_of_trail (h : Trail Ingest.step t events u)
    (hw : t.producer.isAtWork = true) (ha : u.abandoned = false) :
    (u.producer.isAtWork = true ∧ openedChunks events = []) ∨
      ∃ more v, Trail Ingest.step t more v ∧ openedChunks more = [] ∧ v.abandoned = false ∧
        v.producer.isAtWork = false := by
  induction h with
  | start => exact .inl ⟨hw, rfl⟩
  | @step events u v move delivery htrail hs ih =>
    rcases ih ((transition_of_step hs).stays ha).2 with ⟨hu, ho⟩ | hdone
    · have hnone : Event.opened? ⟨u, move, delivery, v⟩ = none := by
        refine opened?_eq_none fun left hbetween => ?_
        rw [hbetween] at hu
        cases hu
      have hmore : openedChunks (events ++ [⟨u, move, delivery, v⟩]) = [] := by simp [ho, hnone]
      cases hv : v.producer.isAtWork with
      | true => exact .inl ⟨rfl, hmore⟩
      | false => exact .inr ⟨_, v, htrail.step hs, hmore, ha, hv⟩
    · exact .inr hdone

/-- As long as the consumer stays, the producer can be brought to where it is done with the
chunk. -/
theorem WorksOn.exists_done (h : s.WorksOn chunk chunks events t) :
    ∃ more u, Trail Ingest.step t more u ∧ s.WorksOn chunk chunks (events ++ more) u ∧
      u.producer.isAtWork = false := by
  cases hw : t.producer.isAtWork with
  | false =>
    refine ⟨[], t, .start, ?_, hw⟩
    rwa [List.append_nil]
  | true =>
    obtain ⟨sent, -, hstage⟩ := h.stage
    obtain ⟨deliveries, u, hcourse, hau, -, hended⟩ := exists_delivers h.stayed hstage.ready
    obtain ⟨rest, htrail, -⟩ := exists_trail_of_course hcourse
    rcases work_or_done_of_trail htrail hw hau with ⟨hu, -⟩ | ⟨more, v, hmore, ho, hav, hv⟩
    · rw [hended] at hu
      cases hu
    · exact ⟨more, v, hmore, h.trans hmore ho hav, hv⟩

/-! ## A directory with one chunk -/

def loneEntry : ChunkEntry := sampleEntry "000000020-000000029" ⟨20, 29⟩

def loneFiles (bs : Bytes) : FileStore where
  workingPlace := []
  nodes := [(["chunks"], .directory), (["chunks", "000000020-000000029.bin"], .file bs)]

/-- Two workers, and two appearances in a batch. -/
def twoByTwo : IngestSettings :=
  ⟨⟨2, Nat.two_pos⟩, ⟨2, Nat.two_pos⟩, ⟨1, Nat.one_pos⟩, ⟨none, none⟩⟩

def loneIngest (bs : Bytes) : Ingest :=
  (new twoByTwo ⟨"/chunks"⟩ none (loneFiles bs)).listedAs [loneEntry]

def loneMoves : List IngestMove :=
  (List.replicate 30 [.decode (.work 0), .decode (.work 1), .produce, .decode .close]).flatten

def loneRun (bs : Bytes) : List Event × Ingest :=
  Trail.follow Ingest.step (loneIngest bs) loneMoves

theorem worksOn_loneRun {bs : Bytes} (ha : (loneRun bs).2.abandoned = false)
    (ho : openedChunks (loneRun bs).1 = [loneEntry]) :
    (loneIngest bs).WorksOn loneEntry [] (loneRun bs).1 (loneRun bs).2 where
  next := rfl
  trail := Trail.trail_follow Ingest.step (loneIngest bs) loneMoves
  opened := ho
  stayed := ha

end Ingest

end AppearanceIndex
