import AppearanceIndex.Ingest.Receive
import AppearanceIndex.Proofs.Decode.Fairness
import AppearanceIndex.Proofs.Ingest.Complete

/-!
# Receiving follows a course

What `Ingest.receiveAll` takes out is what a consumer can take that stays to the end
(`Ingest.delivers_receiveAll`): every turn is one of the moves of an ingest or a few of them, and an
ingest in which nobody can make a move but the consumer, who finds nothing, has ended.
-/

namespace AppearanceIndex

/-- The consumer of the decode under way is receiving and is to look at the errors next. -/
def Producer.Attends : Producer → Prop
  | decoding work _ | sending _ work _ =>
    work.stream.isReceiving = true ∧ work.stream.checked = false
  | _ => True

/-- The consumer of the decode under way is receiving and has not received the end. -/
def Producer.IsReady : Producer → Prop
  | decoding work _ | sending _ work _ =>
    work.stream.isReceiving = true ∧ work.stream.finished = false
  | _ => True

namespace DecodeStream

variable {s t : DecodeStream}

/-- A turn of the consumer is a look at the errors and, if there are none, one at the output. -/
theorem steps_of_receive? (hr : s.isReceiving = true) :
    (∃ received, s.receive? = (some received, s.poll.2) ∧
      s.step .poll = some (some received, s.poll.2)) ∨
    (s.step .poll = some (none, s.poll.2) ∧ s.poll.2.checked = true ∧
      s.poll.2.step .take = some s.receive?) := by
  have hstep : s.step .poll = some s.poll := by
    show (if s.isReceiving then some s.poll else none) = _
    rw [if_pos hr]
  unfold receive?
  cases hpoll : s.poll with
  | mk received u =>
    rw [hpoll] at hstep
    cases received with
    | some received => exact .inl ⟨received, rfl, hstep⟩
    | none =>
      refine .inr ⟨hstep, ?_⟩
      have ht := transition_of_step hstep
      cases ht with
      | pollNothing _ hf he =>
        refine ⟨rfl, ?_⟩
        have hready : (s.isReceiving && true && !s.finished) = true := by
          rw [hr, hf]
          rfl
        exact if_pos hready

/-- A consumer that took an appearance, or nothing, is to look at the errors next. -/
theorem Transition.attends {received : Option Received} (h : s.Transition .take received t) :
    t.isReceiving = s.isReceiving ∧
      ((∀ ending, received = some ending → ∃ d, ending = .appearance d) → t.checked = false) := by
  refine ⟨h.isReceiving_eq rfl, fun hitem => ?_⟩
  cases h with
  | takeItem | takeNothing => rfl
  | takeError | takeCancelled | takeEnd =>
    obtain ⟨d, hd⟩ := hitem _ rfl
    cases hd

theorem receive?_attends (hr : s.isReceiving = true) :
    s.receive?.2.isReceiving = true ∧
      ((∀ ending, s.receive?.1 = some ending → ∃ d, ending = .appearance d) →
        s.receive?.2.checked = false) := by
  rcases steps_of_receive? hr with ⟨received, heq, hstep⟩ | ⟨hpoll, -, htake⟩
  · rw [heq]
    have ht := transition_of_step hstep
    refine ⟨(ht.isReceiving_eq rfl).trans hr, fun hitem => ?_⟩
    obtain ⟨d, rfl⟩ := hitem received rfl
    cases ht
  · have ht := transition_of_step hpoll
    have ht' : s.poll.2.Transition .take s.receive?.1 s.receive?.2 := transition_of_step htake
    exact ⟨ht'.attends.1.trans ((ht.isReceiving_eq rfl).trans hr), ht'.attends.2⟩

/-- The turn of the others is a worker's step, or the output is closed. -/
theorem work_or_close_of_advance (h : s.advance = some t) :
    (∃ i, s.work i = some t) ∨ s.step .close = some (none, t) := by
  unfold advance at h
  split at h
  · next i hi => exact .inl ⟨i, h⟩
  · next hall =>
    right
    split at h
    · cases h
    · next hclosed =>
      cases h
      have hended : s.allEnded = true := by
        unfold allEnded
        rw [List.all_eq_true]
        intro worker hw
        simpa using List.findIdx?_eq_none_iff.mp hall worker hw
      have hready : (s.allEnded && !s.closed) = true := by simp [hended, hclosed]
      exact if_pos hready

/-- The turn of the others leaves the consumer where it is. -/
theorem advance_attends (h : s.advance = some t) :
    t.isReceiving = s.isReceiving ∧ t.checked = s.checked := by
  rcases work_or_close_of_advance h with ⟨i, hi⟩ | hc
  · cases transition_of_work hi with
    | @work _ worker phase effect _ _ => cases effect <;> exact ⟨rfl, rfl⟩
  · cases transition_of_step hc with
    | close => exact ⟨rfl, rfl⟩

/-- While the consumer finds nothing, some worker can move or the output can be closed. -/
theorem exists_advance (hr : s.isReceiving = true) (h : s.receive? = (none, t)) :
    ∃ u, t.advance = some u := by
  rcases steps_of_receive? hr with ⟨received, heq, -⟩ | ⟨-, -, htake⟩
  · rw [h] at heq
    cases heq
  · rw [h] at htake
    have ht := transition_of_step htake
    cases ht with
    | takeNothing hr' _ ho hc =>
      unfold advance
      split
      · next i hi =>
        obtain ⟨hlt, hactive, -⟩ := List.findIdx?_eq_some_iff_getElem.mp hi
        have hw := List.getElem?_eq_getElem hlt
        exact Option.isSome_iff_exists.mp (isSome_work hw hactive (room_of_nil hr' ho))
      · exact ⟨_, if_neg (by simp [hc])⟩

end DecodeStream

namespace Ingest

variable {s t : Ingest}

theorem course_single {move : IngestMove} {delivery : Option Delivery}
    (h : s.step move = some (delivery, t)) : s.Course delivery.toList t :=
  .step .start h

theorem course_produce (h : s.produce = some t) : s.Course [] t := by
  have hstep : s.step .produce = some (none, t) := by
    show s.produce.map _ = _
    rw [h]
    rfl
  exact course_single hstep

theorem produce_of_decoding {work : ChunkInProgress} {chunks : List ChunkEntry}
    (hp : s.producer = .decoding work chunks) {outcome : Option Received × DecodeStream}
    (hs : work.stream.step (if work.stream.checked then .take else .poll) = some outcome) :
    s.produce = some (s.afterReceive work chunks outcome) := by
  unfold produce
  rw [hp]
  simp only [hs]
  rfl

/-- The turn of the decode's consumer is made of the producer's moves. -/
theorem course_receive? {work : ChunkInProgress} {chunks : List ChunkEntry}
    (hp : s.producer = .decoding work chunks) (ha : s.producer.Attends) :
    s.Course [] (s.afterReceive work chunks work.stream.receive?) := by
  rw [hp] at ha
  obtain ⟨hr, hc⟩ := ha
  rcases DecodeStream.steps_of_receive? hr with ⟨received, heq, hpoll⟩ | ⟨hpoll, hchecked, htake⟩
  · rw [heq]
    refine course_produce (produce_of_decoding hp ?_)
    rw [hc]
    exact hpoll
  · have hfirst : s.Course [] (s.afterReceive work chunks (none, work.stream.poll.2)) := by
      refine course_produce (produce_of_decoding hp ?_)
      rw [hc]
      exact hpoll
    have hproducer : (s.afterReceive work chunks (none, work.stream.poll.2)).producer =
        .decoding { work with stream := work.stream.poll.2 } chunks := rfl
    refine hfirst.trans (course_produce (produce_of_decoding hproducer ?_))
    rw [hchecked]
    exact htake

theorem attends_onReceived {batchSize : Nat} {work : ChunkInProgress} {chunks : List ChunkEntry}
    {received : Received} (hr : work.stream.isReceiving = true)
    (hc : ∀ d, received = .appearance d → work.stream.checked = false) :
    (Producer.onReceived batchSize work chunks received).Attends := by
  cases received with
  | appearance d =>
    simp only [Producer.onReceived]
    split <;> exact ⟨hr, hc d rfl⟩
  | failure f => exact trivial
  | finished =>
    simp only [Producer.onReceived]
    split <;> exact trivial

theorem attends_afterReceive {work : ChunkInProgress} {chunks : List ChunkEntry}
    {outcome : Option Received × DecodeStream} (hr : outcome.2.isReceiving = true)
    (hc : (∀ ending, outcome.1 = some ending → ∃ d, ending = .appearance d) →
      outcome.2.checked = false) : (s.afterReceive work chunks outcome).producer.Attends := by
  obtain ⟨received, stream⟩ := outcome
  cases received with
  | none => exact ⟨hr, hc fun _ hnone => nomatch hnone⟩
  | some received =>
    refine attends_onReceived hr fun d hd => hc ?_
    intro ending hending
    cases hending
    exact ⟨d, hd⟩

theorem attends_of_pending {delivery : Delivery} {next : Producer}
    (hp : s.producer.pending = some (delivery, next)) (ha : s.producer.Attends) :
    next.Attends := by
  cases hs : s.producer with
  | sending batch work chunks =>
    rw [hs] at hp ha
    cases hp
    exact ha
  | completing batch chunks =>
    rw [hs] at hp
    cases hp
    exact trivial
  | failing f =>
    rw [hs] at hp
    cases hp
    exact trivial
  | _ =>
    rw [hs] at hp
    cases hp

theorem attends_onNextChunk (settings : IngestSettings) (files : FileStore)
    (chunks : List ChunkEntry) : (Producer.onNextChunk settings files chunks).Attends := by
  cases chunks with
  | nil => exact trivial
  | cons chunk chunks =>
    cases hstart : ChunkInProgress.start settings files chunk with
    | refused | aborted =>
      simp only [Producer.onNextChunk, hstart]
      exact trivial
    | started stream =>
      simp only [Producer.onNextChunk, hstart]
      obtain ⟨bs, opened, -, -, rfl⟩ := ChunkInProgress.start_eq_started hstart
      exact ⟨rfl, rfl⟩

/-- The turn of the others in a decode is a move of the ingest. -/
theorem course_decode {work : ChunkInProgress} {chunks : List ChunkEntry}
    (hp : s.producer = .decoding work chunks) {next : DecodeStream}
    (h : work.stream.advance = some next) :
    s.Course [] { s with producer := .decoding { work with stream := next } chunks } := by
  rcases DecodeStream.work_or_close_of_advance h with ⟨i, hi⟩ | hc
  · have hmove : s.step (.decode (.work i)) =
        some (none, { s with producer := .decoding { work with stream := next } chunks }) := by
      unfold step decodeMove
      rw [hp]
      simp only [hi]
      rfl
    exact course_single hmove
  · have hmove : s.step (.decode .close) =
        some (none, { s with producer := .decoding { work with stream := next } chunks }) := by
      unfold step decodeMove
      rw [hp]
      simp only [hc]
      rfl
    exact course_single hmove

theorem course_advance_decoding {work : ChunkInProgress} {chunks : List ChunkEntry}
    (hp : s.producer = .decoding work chunks) (h : s.advance = some t)
    (ha : s.abandoned = false) (hs : s.producer.Attends) :
    s.Course [] t ∧ t.abandoned = false ∧ t.producer.Attends := by
  have hcourse := course_receive? hp hs
  rw [hp] at hs
  obtain ⟨hreceiving, hunchecked⟩ := DecodeStream.receive?_attends hs.1
  unfold advance at h
  simp only [hp] at h
  generalize work.stream.receive? = outcome at h hcourse hreceiving hunchecked
  obtain ⟨received, stream⟩ := outcome
  cases received with
  | some received =>
    cases h
    exact ⟨hcourse, ha, attends_afterReceive hreceiving hunchecked⟩
  | none =>
    obtain ⟨next, hnext, rfl⟩ := Option.map_eq_some_iff.mp h
    obtain ⟨hreceiving', hchecked'⟩ := DecodeStream.advance_attends hnext
    have hproducer : (s.afterReceive work chunks (none, stream)).producer =
        .decoding { work with stream } chunks := rfl
    have hdecode := course_decode hproducer hnext
    refine ⟨hcourse.trans hdecode, ha, hreceiving'.trans hreceiving, hchecked'.trans ?_⟩
    exact hunchecked fun _ hnone => nomatch hnone

theorem attends_of_produce (h : s.produce = some t)
    (hn : ∀ work chunks, s.producer ≠ .decoding work chunks) (hs : s.producer.Attends) :
    t.producer.Attends := by
  have ht := transition_of_produce h
  generalize hmove : IngestMove.produce = move at ht
  cases ht with
  | list =>
    unfold listChunks
    split <;> exact trivial
  | next => exact attends_onNextChunk _ _ _
  | receive _ hp => exact absurd hp (hn _ _)
  | send hpending => exact attends_of_pending hpending hs
  | giveUp => exact trivial
  | @record chunk f =>
    obtain ⟨g, hg⟩ := s.exists_failing chunk f
    rw [hg]
    exact trivial
  | _ => cases hmove

/-- The turn of everyone but the consumer follows a course. -/
theorem course_advance (h : s.advance = some t) (ha : s.abandoned = false)
    (hs : s.producer.Attends) : s.Course [] t ∧ t.abandoned = false ∧ t.producer.Attends := by
  cases hp : s.producer with
  | decoding work chunks => exact course_advance_decoding hp h ha hs
  | _ =>
    have hproduce : s.produce = some t := by
      unfold advance at h
      unfold produce
      simp only [hp] at h ⊢
      exact h
    have hframe := (transition_of_produce hproduce).frame.2.2.2 (by simp)
    refine ⟨course_produce hproduce, hframe.trans ha, attends_of_produce hproduce ?_ hs⟩
    rw [hp]
    exact fun _ _ heq => nomatch heq

/-- An ingest in which only the consumer could move, and finds nothing, has ended. -/
theorem ended_of_stuck (ha : s.abandoned = false) (hq : s.queue = []) (hs : s.producer.Attends)
    (h : s.advance = none) : s.producer = .ended := by
  have hdeliver : ∀ delivery next, s.deliver delivery next ≠ none := by
    intro delivery next
    unfold deliver
    rw [ha, hq, if_neg Bool.false_ne_true]
    exact Option.some_ne_none _
  unfold advance at h
  cases hp : s.producer with
  | ended => rfl
  | decoding work chunks =>
    rw [hp] at hs
    simp only [hp] at h
    split at h
    · cases h
    · next stream hreceive =>
      obtain ⟨u, hu⟩ := DecodeStream.exists_advance hs.1 hreceive
      rw [hu] at h
      cases h
  | listing | between | recording =>
    simp only [hp, produceOther] at h
    cases h
  | sending | completing | failing =>
    simp only [hp, produceOther] at h
    exact absurd h (hdeliver _ _)

/-! ## Receiving to the end -/

/-- A consumer that stays to the end can take these deliveries. -/
def Delivers (s : Ingest) (deliveries : List Delivery) : Prop :=
  ∃ t, s.Course deliveries t ∧ t.abandoned = false ∧ t.queue = [] ∧ t.producer = .ended

theorem Delivers.produced {settings : IngestSettings} {directory : Path} {log : Option StatusLog}
    {files : FileStore} {deliveries : List Delivery}
    (h : (new settings directory log files).Delivers deliveries) :
    (new settings directory log files).Produced deliveries .ended := by
  obtain ⟨t, hcourse, ha, hq, hended⟩ := h
  have hproduced := hcourse.traced.produced ha
  rw [hq, hended, List.append_nil] at hproduced
  exact hproduced

theorem takeDelivery_eq_none (h : s.takeDelivery = none) : s.queue = [] := by
  unfold takeDelivery at h
  split at h
  · cases h
  · assumption

theorem course_takeDelivery {delivery : Delivery} (ha : s.abandoned = false)
    (h : s.takeDelivery = some (delivery, t)) :
    s.Course [delivery] t ∧ t.abandoned = false ∧ t.producer = s.producer := by
  unfold takeDelivery at h
  split at h
  · next queue hq =>
    cases h
    have hstep : s.step .receive = some (some delivery, { s with queue }) := by
      unfold step
      simp only [ha, hq]
    exact ⟨course_single hstep, ha, rfl⟩
  · cases h

theorem course_receive (ha : s.abandoned = false) (hs : s.producer.Attends) :
    match s.receive with
    | (some delivery, t) => s.Course [delivery] t ∧ t.abandoned = false ∧ t.producer.Attends
    | (none, _) => s.Delivers [] := by
  fun_induction receive s with
  | case1 s delivery t hd =>
    obtain ⟨hcourse, hat, hproducer⟩ := course_takeDelivery ha hd
    exact ⟨hcourse, hat, hproducer.symm ▸ hs⟩
  | case2 s hd t h ih =>
    obtain ⟨hcourse, hat, hst⟩ := course_advance h ha hs
    have hrest := ih hat hst
    split at hrest
    · exact ⟨hcourse.trans hrest.1, hrest.2⟩
    · obtain ⟨u, hu, hend⟩ := hrest
      exact ⟨u, hcourse.trans hu, hend⟩
  | case3 s hd h =>
    have hq := takeDelivery_eq_none hd
    exact ⟨s, .start, ha, hq, ended_of_stuck ha hq hs h⟩

/-- Taking everything out is one of the ways in which an ingest can be taken to its end. -/
theorem delivers_receiveAll (ha : s.abandoned = false) (hs : s.producer.Attends) :
    s.Delivers s.receiveAll.1 := by
  fun_induction receiveAll s with
  | case1 s delivery t hr deliveries u heq ih =>
    have hreceive := course_receive ha hs
    rw [hr] at hreceive
    obtain ⟨hcourse, hat, hst⟩ := hreceive
    rw [heq] at ih
    obtain ⟨v, hv, hend⟩ := ih hat hst
    exact ⟨v, hcourse.trans hv, hend⟩
  | case2 s t hr =>
    have hreceive := course_receive ha hs
    rw [hr] at hreceive
    exact hreceive

theorem delivers_new (settings : IngestSettings) (directory : Path) (log : Option StatusLog)
    (files : FileStore) : (new settings directory log files).Delivers
      (new settings directory log files).receiveAll.1 :=
  delivers_receiveAll rfl trivial

/-! ## Going on from anywhere -/

theorem Receiving.ready {work : ChunkInProgress} {items : List DecodedAppearance}
    (h : s.Receiving work items) :
    work.stream.isReceiving = true ∧ work.stream.finished = false := by
  obtain ⟨first, history, hstart, hcourse, hu, hreceived, -⟩ := h
  obtain ⟨bs, opened, -, -, rfl⟩ := ChunkInProgress.start_eq_started hstart
  refine ⟨hcourse.isReceiving_eq hu, ?_⟩
  rcases hcourse.received_eq with ⟨hf, -⟩ | ⟨-, ending, n, heq, he⟩
  · exact hf
  · -- what ends a stream is no appearance
    have hmem : ending ∈ items.map Received.appearance := by
      rw [← hreceived, heq]
      simp
    obtain ⟨d, -, rfl⟩ := List.mem_map.mp hmem
    cases he

theorem Produced.ready {produced : List Delivery} {producer : Producer}
    (h : s.Produced produced producer) : producer.IsReady := by
  cases h with
  | decoding _ hr _ | sending _ hr _ => exact hr.ready
  | _ => exact trivial

/-- A consumer that stays can take out all that waits in the queue. -/
theorem course_drain (ha : s.abandoned = false) :
    ∃ deliveries t, s.Course deliveries t ∧ t.queue = [] ∧ t.abandoned = false ∧
      t.producer = s.producer := by
  generalize hq : s.queue = queue
  induction queue generalizing s with
  | nil => exact ⟨[], s, .start, hq, ha, rfl⟩
  | cons delivery queue ih =>
    have htake : s.takeDelivery = some (delivery, { s with queue }) := by
      unfold takeDelivery
      rw [hq]
    obtain ⟨hcourse, hat, hproducer⟩ := course_takeDelivery ha htake
    obtain ⟨deliveries, t, hrest, hempty, hau, hsame⟩ := ih hat rfl
    exact ⟨_, t, hcourse.trans hrest, hempty, hau, hsame.trans hproducer⟩

/-- A decode under way comes to where its consumer is to look at the errors. -/
theorem exists_attends_of_decoding {work : ChunkInProgress} {chunks : List ChunkEntry}
    (hp : s.producer = .decoding work chunks) (hready : s.producer.IsReady) :
    ∃ t, s.Course [] t ∧ t.abandoned = s.abandoned ∧ t.producer.Attends := by
  rw [hp] at hready
  obtain ⟨hr, hf⟩ := hready
  cases hc : work.stream.checked with
  | false =>
    refine ⟨s, .start, rfl, ?_⟩
    rw [hp]
    exact ⟨hr, hc⟩
  | true =>
    have htake : work.stream.step .take = some work.stream.take := by
      have hturn : (work.stream.isReceiving && work.stream.checked && !work.stream.finished) =
          true := by
        rw [hr, hc, hf]
        rfl
      exact if_pos hturn
    obtain ⟨hreceiving, hunchecked⟩ := (DecodeStream.transition_of_take hr hf).attends
    have hproduce : s.produce = some (s.afterReceive work chunks work.stream.take) := by
      refine produce_of_decoding hp ?_
      rw [hc]
      exact htake
    refine ⟨_, course_produce hproduce, ?_, ?_⟩
    · obtain ⟨producer, hframe⟩ := s.afterReceive_frame work chunks work.stream.take
      rw [hframe]
    · exact attends_afterReceive (hreceiving.trans hr) hunchecked

/-- An ingest whose queue is empty comes to where the consumer of its decode, if there is one, is to
look at the errors. -/
theorem exists_attends (ha : s.abandoned = false) (hq : s.queue = [])
    (hready : s.producer.IsReady) :
    ∃ t, s.Course [] t ∧ t.abandoned = false ∧ t.producer.Attends := by
  cases hp : s.producer with
  | decoding work chunks =>
    obtain ⟨t, hcourse, hat, hattends⟩ := exists_attends_of_decoding hp hready
    exact ⟨t, hcourse, hat.trans ha, hattends⟩
  | sending batch work chunks =>
    have hproduce : s.produce =
        some { s with queue := s.queue ++ [.batch batch], producer := .decoding work chunks } := by
      unfold produce produceOther deliver
      simp only [hp]
      rw [ha, hq, if_neg Bool.false_ne_true]
      rfl
    rw [hp] at hready
    obtain ⟨t, hcourse, hat, hattends⟩ :=
      exists_attends_of_decoding (s := { s with
        queue := s.queue ++ [.batch batch], producer := .decoding work chunks }) rfl hready
    exact ⟨t, (course_produce hproduce).trans hcourse, hat.trans ha, hattends⟩
  | _ =>
    refine ⟨s, .start, ha, ?_⟩
    rw [hp]
    exact trivial

/-- An ingest whose decode under way can be received from can be taken to its end. -/
theorem exists_delivers (ha : s.abandoned = false) (hready : s.producer.IsReady) :
    ∃ more, s.Delivers more := by
  obtain ⟨taken, t, hdrain, hq, hat, hsame⟩ := course_drain ha
  rw [← hsame] at hready
  obtain ⟨u, hcourse, hau, hattends⟩ := exists_attends hat hq hready
  obtain ⟨v, hrest, hend⟩ := delivers_receiveAll hau hattends
  exact ⟨_, v, hdrain.trans (hcourse.trans hrest), hend⟩

/-- As long as the consumer stays, an ingest can be taken to its end. -/
theorem Course.rest_delivers {settings : IngestSettings} {directory : Path}
    {log : Option StatusLog} {files : FileStore} {deliveries : List Delivery}
    (h : (new settings directory log files).Course deliveries t) (ha : t.abandoned = false) :
    ∃ more, t.Delivers more :=
  exists_delivers ha (h.traced.produced ha).ready

theorem Course.delivers {settings : IngestSettings} {directory : Path} {log : Option StatusLog}
    {files : FileStore} {deliveries : List Delivery}
    (h : (new settings directory log files).Course deliveries t) (ha : t.abandoned = false) :
    ∃ more, (new settings directory log files).Delivers (deliveries ++ more) := by
  obtain ⟨more, u, hrest, hend⟩ := h.rest_delivers ha
  exact ⟨more, u, h.trans hrest, hend⟩

/-! ## Nothing to deliver -/

/-- Without chunk files, an ingest delivers nothing, and no failure either. -/
theorem delivers_nil {settings : IngestSettings} {directory : Path} {log : Option StatusLog}
    {files : FileStore} (h : ChunkEntry.list files directory settings.window = .ok []) :
    (new settings directory log files).Delivers [] := by
  have hlisted : (new settings directory log files).produce =
      some { new settings directory log files with producer := .between [] } := by
    show some (listChunks _) = _
    unfold listChunks
    rw [show ChunkEntry.list (new settings directory log files).files
      (new settings directory log files).directory
      (new settings directory log files).settings.window = .ok [] from h]
    rfl
  refine ⟨{ new settings directory log files with producer := .ended }, ?_, rfl, rfl, rfl⟩
  exact (course_produce hlisted).trans (course_produce rfl)

/-- An ingest that cannot list the chunk files delivers a failure and nothing else. -/
theorem failure_of_unlisted {settings : IngestSettings} {directory : Path}
    {log : Option StatusLog} {files : FileStore}
    (h : (ChunkEntry.list files directory settings.window).isOk = false)
    {deliveries : List Delivery}
    (hd : (new settings directory log files).Delivers deliveries) :
    ∃ f, deliveries = [.failure f] := by
  have hnot : ∀ {done left}, ¬ (new settings directory log files).Completed done left := by
    intro done left hdone
    rw [show ChunkEntry.list files directory settings.window = .ok (done.map Prod.fst ++ left)
      from hdone.listed] at h
    cases h
  have hproduced := hd.produced
  generalize new settings directory log files = s at hproduced hnot
  generalize hended : Producer.ended = producer at hproduced
  cases hproduced with
  | @failed produced f hfailing =>
    cases hfailing with
    | unlisted => exact ⟨f, rfl⟩
    | failing hdone => exact absurd hdone hnot
  | aborted hdone | ended hdone => exact absurd hdone hnot
  | _ => cases hended

end Ingest

end AppearanceIndex
