import AppearanceIndex.Ingest.Pipeline
import AppearanceIndex.Proofs.Decode.Undisturbed

/-!
# Courses of an ingest

`Ingest.Course` is any sequence of moves, with what the consumer took out of the queue. What the
producer has put into the queue so far follows from where it stands: `Ingest.Produced` tells, for
each state of the producer, the batches of the chunks behind it, those of the chunk it is decoding,
and the failure that ended the production. Nothing is lost between the producer and a consumer that
stays (`Ingest.Traced`).
-/

namespace AppearanceIndex

namespace ChunkEntry

/-- Full batches of a chunk that hold the items up to a rest too short for one more. -/
structure PartlyBatched (chunk : ChunkEntry) (size : Nat) (items : List DecodedAppearance)
    (batches : List AppearanceBatch) (rest : List DecodedAppearance) : Prop where
  items_eq : items = batches.flatMap (·.appearances) ++ rest
  full : ∀ batch ∈ batches, batch.range = chunk.range ∧ batch.chunkName = chunk.name ∧
    batch.appearances.length = size ∧ batch.lastInChunk = false
  short : rest.length < size

/-- All batches of a chunk: full ones, and one that is marked as the last. -/
def Batched (chunk : ChunkEntry) (size : Nat) (items : List DecodedAppearance)
    (batches : List AppearanceBatch) : Prop :=
  ∃ full last, batches = full ++ [last] ∧ chunk.PartlyBatched size items full last.appearances ∧
    last.range = chunk.range ∧ last.chunkName = chunk.name ∧ last.lastInChunk = true

theorem partlyBatched_nil (chunk : ChunkEntry) {size : Nat} (h : 0 < size) :
    chunk.PartlyBatched size [] [] [] where
  items_eq := rfl
  full := by simp
  short := h

variable {chunk : ChunkEntry} {size : Nat} {items rest : List DecodedAppearance}
  {batches : List AppearanceBatch}

theorem PartlyBatched.add (h : chunk.PartlyBatched size items batches rest)
    (d : DecodedAppearance) (hs : rest.length + 1 < size) :
    chunk.PartlyBatched size (items ++ [d]) batches (rest ++ [d]) where
  items_eq := by rw [h.items_eq, List.append_assoc]
  full := h.full
  short := by simpa using hs

theorem PartlyBatched.fill (h : chunk.PartlyBatched size items batches rest)
    (d : DecodedAppearance) (hs : rest.length + 1 = size) :
    chunk.PartlyBatched size (items ++ [d])
      (batches ++ [⟨chunk.range, chunk.name, rest ++ [d], false⟩]) [] where
  items_eq := by rw [h.items_eq]; simp
  full := by
    intro batch hmem
    rcases List.mem_append.mp hmem with hmem | hmem
    · exact h.full batch hmem
    · rw [List.mem_singleton.mp hmem]
      exact ⟨rfl, rfl, by simpa using hs, rfl⟩
  short := by simp; omega

theorem PartlyBatched.close (h : chunk.PartlyBatched size items batches rest) :
    chunk.Batched size items (batches ++ [⟨chunk.range, chunk.name, rest, true⟩]) :=
  ⟨batches, _, rfl, h, rfl, rfl, rfl⟩

theorem Batched.items_eq (h : chunk.Batched size items batches) :
    items = batches.flatMap (·.appearances) := by
  obtain ⟨full, last, rfl, hp, -⟩ := h
  rw [hp.items_eq]
  simp

theorem Batched.of_mem (h : chunk.Batched size items batches) {batch : AppearanceBatch}
    (hb : batch ∈ batches) : batch.range = chunk.range ∧ batch.chunkName = chunk.name := by
  obtain ⟨full, last, rfl, hp, hrange, hname, -⟩ := h
  rcases List.mem_append.mp hb with hb | hb
  · obtain ⟨hr, hn, -⟩ := hp.full batch hb
    exact ⟨hr, hn⟩
  · rw [List.mem_singleton.mp hb]
    exact ⟨hrange, hname⟩

end ChunkEntry

namespace Ingest

/-- A sequence of moves from one state of an ingest to another, and the deliveries that the
consumer took. -/
inductive Course (s : Ingest) : List Delivery → Ingest → Prop where
  | start : Course s [] s
  | step {deliveries : List Delivery} {t u : Ingest} {move : IngestMove}
      {delivery : Option Delivery} :
      Course s deliveries t → t.step move = some (delivery, u) →
      Course s (deliveries ++ delivery.toList) u

theorem Course.trans {s t u : Ingest} {ds es : List Delivery} (h1 : s.Course ds t)
    (h2 : t.Course es u) : s.Course (ds ++ es) u := by
  induction h2 with
  | start => simpa using h1
  | step _ hs ih =>
    rw [← List.append_assoc]
    exact .step ih hs

/-! ## Chunks behind the producer -/

section Chunks

variable (s : Ingest)

/-- A decode of the chunk file that began as it should and has given these items so far. -/
def Receiving (work : ChunkInProgress) (items : List DecodedAppearance) : Prop :=
  ∃ first history, ChunkInProgress.start s.settings s.files work.chunk = .started first ∧
    first.Course history work.stream ∧ history.Undisturbed ∧
    history.received = items.map .appearance ∧ work.decoded = items.length

/-- A decode of the chunk file can give these items and then the end or a failure. -/
def Decodes (chunk : ChunkEntry) (items : List DecodedAppearance) (declared : Nat)
    (ending : Received) : Prop :=
  ∃ first history stream, ChunkInProgress.start s.settings s.files chunk = .started first ∧
    DecodeStream.Course first history stream ∧ history.Undisturbed ∧
    history.received = items.map .appearance ++ [ending] ∧
    declared = first.chunk.header.appearanceCount.toNat

/-- These are all batches of a decode of the chunk file that met no failure. -/
def Completes (chunk : ChunkEntry) (batches : List AppearanceBatch) : Prop :=
  ∃ items, s.Decodes chunk items items.length .finished ∧
    chunk.Batched s.settings.batchSize.val items batches

/-- Decoding the chunk file can fail after these batches. -/
inductive Fails (chunk : ChunkEntry) : List AppearanceBatch → Failure → Prop where
  | refused {f : Failure} (h : ChunkInProgress.start s.settings s.files chunk = .refused f) :
      Fails chunk [] f
  | failed {items rest : List DecodedAppearance} {declared : Nat}
      {batches : List AppearanceBatch} {f : Failure}
      (h : s.Decodes chunk items declared (.failure f))
      (hb : chunk.PartlyBatched s.settings.batchSize.val items batches rest) :
      Fails chunk batches f
  | miscounted {items rest : List DecodedAppearance} {declared : Nat}
      {batches : List AppearanceBatch} {f : Failure}
      (h : s.Decodes chunk items declared .finished)
      (hb : chunk.PartlyBatched s.settings.batchSize.val items batches rest)
      (hv : validateDecodedCount chunk.range declared items.length = .error f) :
      Fails chunk batches f

/-- The chunk files of the ingest are those of `done`, whose batches are complete, and `left`. -/
structure Completed (done : List (ChunkEntry × List AppearanceBatch))
    (left : List ChunkEntry) : Prop where
  listed : ChunkEntry.list s.files s.directory s.settings.window =
    .ok (done.map Prod.fst ++ left)
  complete : ∀ entry ∈ done, s.Completes entry.1 entry.2

def asDeliveries (batches : List AppearanceBatch) : List Delivery := batches.map .batch

def deliveriesOf (done : List (ChunkEntry × List AppearanceBatch)) : List Delivery :=
  done.flatMap fun entry => asDeliveries entry.2

/-- What the producer has put into the queue when it has come to a state. -/
inductive Produced : List Delivery → Producer → Prop where
  | listing : Produced [] .listing
  | unlisted {f : Failure}
      (h : (Activity.listChunks s.directory.text).around
        (ChunkEntry.list s.files s.directory s.settings.window) = .error f) :
      Produced [] (.failing f)
  | between {done : List (ChunkEntry × List AppearanceBatch)} {left : List ChunkEntry}
      (h : s.Completed done left) : Produced (deliveriesOf done) (.between left)
  | decoding {done : List (ChunkEntry × List AppearanceBatch)} {left : List ChunkEntry}
      {work : ChunkInProgress} {items : List DecodedAppearance} {batches : List AppearanceBatch}
      (h : s.Completed done (work.chunk :: left)) (hr : s.Receiving work items)
      (hb : work.chunk.PartlyBatched s.settings.batchSize.val items batches
        work.collected.reverse) :
      Produced (deliveriesOf done ++ asDeliveries batches) (.decoding work left)
  | sending {done : List (ChunkEntry × List AppearanceBatch)} {left : List ChunkEntry}
      {work : ChunkInProgress} {items : List DecodedAppearance} {batches : List AppearanceBatch}
      {batch : AppearanceBatch}
      (h : s.Completed done (work.chunk :: left)) (hr : s.Receiving work items)
      (hb : work.chunk.PartlyBatched s.settings.batchSize.val items (batches ++ [batch])
        work.collected.reverse) :
      Produced (deliveriesOf done ++ asDeliveries batches) (.sending batch work left)
  | completing {done : List (ChunkEntry × List AppearanceBatch)} {left : List ChunkEntry}
      {chunk : ChunkEntry} {batches : List AppearanceBatch} {batch : AppearanceBatch}
      (h : s.Completed done (chunk :: left)) (hc : s.Completes chunk (batches ++ [batch])) :
      Produced (deliveriesOf done ++ asDeliveries batches) (.completing batch left)
  | recording {done : List (ChunkEntry × List AppearanceBatch)} {left : List ChunkEntry}
      {chunk : ChunkEntry} {batches : List AppearanceBatch} {f : Failure}
      (h : s.Completed done (chunk :: left)) (hf : s.Fails chunk batches f) :
      Produced (deliveriesOf done ++ asDeliveries batches) (.recording chunk f)
  | failing {done : List (ChunkEntry × List AppearanceBatch)} {left : List ChunkEntry}
      {chunk : ChunkEntry} {batches : List AppearanceBatch} {f g : Failure}
      (h : s.Completed done (chunk :: left)) (hf : s.Fails chunk batches f)
      (hg : (s.recordFailure chunk f).producer = .failing g) :
      Produced (deliveriesOf done ++ asDeliveries batches) (.failing g)
  | failed {produced : List Delivery} {f : Failure} (h : Produced produced (.failing f)) :
      Produced (produced ++ [.failure f]) .ended
  | aborted {done : List (ChunkEntry × List AppearanceBatch)} {left : List ChunkEntry}
      {chunk : ChunkEntry} (h : s.Completed done (chunk :: left))
      (ha : ChunkInProgress.start s.settings s.files chunk = .aborted) :
      Produced (deliveriesOf done) .ended
  | ended {done : List (ChunkEntry × List AppearanceBatch)} (h : s.Completed done []) :
      Produced (deliveriesOf done) .ended

end Chunks

@[simp] theorem asDeliveries_append (batches more : List AppearanceBatch) :
    asDeliveries (batches ++ more) = asDeliveries batches ++ asDeliveries more := by
  simp [asDeliveries]

@[simp] theorem deliveriesOf_append (done more : List (ChunkEntry × List AppearanceBatch)) :
    deliveriesOf (done ++ more) = deliveriesOf done ++ deliveriesOf more := by
  simp [deliveriesOf]

@[simp] theorem deliveriesOf_single (chunk : ChunkEntry) (batches : List AppearanceBatch) :
    deliveriesOf [(chunk, batches)] = asDeliveries batches := by
  simp [deliveriesOf]

variable {s : Ingest}

theorem Completed.snoc {done : List (ChunkEntry × List AppearanceBatch)} {chunk : ChunkEntry}
    {left : List ChunkEntry} {batches : List AppearanceBatch}
    (h : s.Completed done (chunk :: left)) (hc : s.Completes chunk batches) :
    s.Completed (done ++ [(chunk, batches)]) left where
  listed := by rw [h.listed]; simp
  complete := by
    intro entry hmem
    rcases List.mem_append.mp hmem with hmem | hmem
    · exact h.complete entry hmem
    · rw [List.mem_singleton.mp hmem]
      exact hc

/-! ## One move of the decode under way -/

theorem undisturbed_snoc {history : DecodeHistory} {e : DecodeEvent} (h : history.Undisturbed)
    (he : e.move.disturbs = false) : DecodeHistory.Undisturbed (history ++ [e]) := by
  intro other hmem
  rcases List.mem_append.mp hmem with hmem | hmem
  · exact h other hmem
  · rw [List.mem_singleton.mp hmem]
    exact he

theorem Receiving.move {work : ChunkInProgress} {items : List DecodedAppearance}
    (h : s.Receiving work items) {move : DecodeMove} (hm : move.disturbs = false)
    {stream : DecodeStream} (hs : work.stream.step move = some (none, stream)) :
    s.Receiving { work with stream } items := by
  obtain ⟨first, history, hstart, hc, hu, hreceived, hdecoded⟩ := h
  exact ⟨first, _, hstart, hc.step hs, undisturbed_snoc hu hm, by simpa using hreceived, hdecoded⟩

theorem Receiving.appearance {work : ChunkInProgress} {items : List DecodedAppearance}
    (h : s.Receiving work items) {move : DecodeMove} (hm : move.disturbs = false)
    {stream : DecodeStream} {d : DecodedAppearance}
    (hs : work.stream.step move = some (some (.appearance d), stream))
    (collected : List DecodedAppearance) :
    s.Receiving { work with stream, collected, decoded := work.decoded + 1 } (items ++ [d]) := by
  obtain ⟨first, history, hstart, hc, hu, hreceived, hdecoded⟩ := h
  exact ⟨first, _, hstart, hc.step hs, undisturbed_snoc hu hm, by simp [hreceived],
    by simp [hdecoded]⟩

theorem Receiving.ending {work : ChunkInProgress} {items : List DecodedAppearance}
    (h : s.Receiving work items) {move : DecodeMove} (hm : move.disturbs = false)
    {stream : DecodeStream} {ending : Received}
    (hs : work.stream.step move = some (some ending, stream)) :
    s.Decodes work.chunk items stream.chunk.header.appearanceCount.toNat ending := by
  obtain ⟨first, history, hstart, hc, hu, hreceived, -⟩ := h
  have hall := hc.step hs
  exact ⟨first, _, stream, hstart, hall, undisturbed_snoc hu hm, by simp [hreceived],
    by rw [hall.chunk_eq]⟩

/-- A decode that has just begun has given nothing. -/
theorem Receiving.begin {chunk : ChunkEntry} {stream : DecodeStream}
    (h : ChunkInProgress.start s.settings s.files chunk = .started stream) :
    s.Receiving ⟨chunk, stream, [], 0⟩ [] :=
  ⟨stream, [], h, .start, by simp [DecodeHistory.Undisturbed], rfl, rfl⟩

/-- What the producer becomes by what it receives, when it has received these items of a chunk and
sent these batches. -/
inductive Reacts (s : Ingest) (chunk : ChunkEntry) (items : List DecodedAppearance)
    (batches : List AppearanceBatch) (left : List ChunkEntry) : Received → Producer → Prop where
  | collected {work : ChunkInProgress} {d : DecodedAppearance} (hw : work.chunk = chunk)
      (hr : s.Receiving work (items ++ [d]))
      (hb : chunk.PartlyBatched s.settings.batchSize.val (items ++ [d]) batches
        work.collected.reverse) :
      Reacts s chunk items batches left (.appearance d) (.decoding work left)
  | filled {work : ChunkInProgress} {d : DecodedAppearance} {batch : AppearanceBatch}
      (hw : work.chunk = chunk) (hr : s.Receiving work (items ++ [d]))
      (hb : chunk.PartlyBatched s.settings.batchSize.val (items ++ [d]) (batches ++ [batch])
        work.collected.reverse) :
      Reacts s chunk items batches left (.appearance d) (.sending batch work left)
  | completed {batch : AppearanceBatch} (hd : s.Decodes chunk items items.length .finished)
      (hb : chunk.Batched s.settings.batchSize.val items (batches ++ [batch])) :
      Reacts s chunk items batches left .finished (.completing batch left)
  | miscounted {declared : Nat} {f : Failure} (hd : s.Decodes chunk items declared .finished)
      (hn : declared ≠ items.length) (hf : s.Fails chunk batches f) :
      Reacts s chunk items batches left .finished (.recording chunk f)
  | failed {f : Failure} (hf : s.Fails chunk batches f) :
      Reacts s chunk items batches left (.failure f) (.recording chunk f)

theorem reacts_onReceived (left : List ChunkEntry) {work : ChunkInProgress}
    {items : List DecodedAppearance} {batches : List AppearanceBatch} (hr : s.Receiving work items)
    (hb : work.chunk.PartlyBatched s.settings.batchSize.val items batches work.collected.reverse)
    {move : DecodeMove} (hm : move.disturbs = false) {received : Received} {stream : DecodeStream}
    (hs : work.stream.step move = some (some received, stream)) :
    s.Reacts work.chunk items batches left received
      (.onReceived s.settings.batchSize.val { work with stream } left received) := by
  cases received with
  | appearance d =>
    have hshort := hb.short
    rw [List.length_reverse] at hshort
    by_cases hfull : s.settings.batchSize.val ≤ work.collected.length + 1
    · simp only [Producer.onReceived, List.length_cons, if_pos hfull]
      refine .filled rfl (hr.appearance hm hs []) ?_
      have hfill := hb.fill d (by rw [List.length_reverse]; omega)
      simpa [ChunkInProgress.batch] using hfill
    · simp only [Producer.onReceived, List.length_cons, if_neg hfull]
      refine .collected rfl (hr.appearance hm hs (d :: work.collected)) ?_
      have hadd := hb.add d (by rw [List.length_reverse]; omega)
      simpa using hadd
  | failure f => exact .failed (.failed (hr.ending hm hs) hb)
  | finished =>
    have hends := hr.ending hm hs
    obtain ⟨-, -, -, -, -, -, hdecoded⟩ := hr
    simp only [Producer.onReceived, validateDecodedCount, hdecoded]
    by_cases hcount : stream.chunk.header.appearanceCount.toNat = items.length
    · rw [if_pos hcount]
      rw [hcount] at hends
      exact .completed hends hb.close
    · rw [if_neg hcount]
      exact .miscounted hends hcount (.miscounted hends hb (if_neg hcount))

/-- What the producer does with what it received. -/
theorem produced_onReceived {done : List (ChunkEntry × List AppearanceBatch)}
    {left : List ChunkEntry} {work : ChunkInProgress} {items : List DecodedAppearance}
    {batches : List AppearanceBatch} (h : s.Completed done (work.chunk :: left))
    (hr : s.Receiving work items)
    (hb : work.chunk.PartlyBatched s.settings.batchSize.val items batches work.collected.reverse)
    {move : DecodeMove} (hm : move.disturbs = false) {received : Received} {stream : DecodeStream}
    (hs : work.stream.step move = some (some received, stream)) :
    s.Produced (deliveriesOf done ++ asDeliveries batches)
      (.onReceived s.settings.batchSize.val { work with stream } left received) := by
  have hreacts := reacts_onReceived left hr hb hm hs
  generalize Producer.onReceived s.settings.batchSize.val { work with stream } left received = next
    at hreacts ⊢
  cases hreacts with
  | collected hw hr hb =>
    rw [← hw] at h hb
    exact .decoding h hr hb
  | filled hw hr hb =>
    rw [← hw] at h hb
    exact .sending h hr hb
  | completed hd hb => exact .completing h ⟨items, hd, hb⟩
  | miscounted _ _ hf | failed hf => exact .recording h hf

end Ingest

end AppearanceIndex
