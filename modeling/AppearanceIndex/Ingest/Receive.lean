import AppearanceIndex.Decode.Receive
import AppearanceIndex.Ingest.Pipeline

/-!
# Receiving from an ingest

`Ingest.receive` runs an ingest until its consumer takes something out of the queue or the producer
has ended. Between two deliveries the participants of the decode under way move as they do in
`DecodeStream.receive`. Every move lowers a measure: first whether the directory is still to be
listed, then how many chunks are left, then what the current chunk and the queue still cost.
-/

namespace AppearanceIndex

namespace Producer

/-- How many chunks are left after the current one, and the look for one more. -/
def chunksLeft : Producer → Nat
  | between chunks | decoding _ chunks | sending _ _ chunks | completing _ chunks =>
    chunks.length + 1
  | _ => 0

def weight : Producer → Nat
  | listing | between _ | ended => 0
  | decoding work _ => 4 * work.stream.weight + 8
  | sending _ work _ => 4 * work.stream.weight + 10
  | completing _ _ => 6
  | recording _ _ => 4
  | failing _ => 2

/-- The directory is still to be listed. -/
def stage : Producer → Nat
  | listing => 1
  | _ => 0

end Producer

namespace Ingest

/-- What an ingest still has to do. -/
def measure (s : Ingest) : Nat × Nat × Nat :=
  (s.producer.stage, s.producer.chunksLeft, s.producer.weight + s.queue.length)

def Below : Nat × Nat × Nat → Nat × Nat × Nat → Prop := Prod.Lex (· < ·) (Prod.Lex (· < ·) (· < ·))

theorem below_stage {a b : Nat × Nat × Nat} (h : a.1 < b.1) : Below a b := Prod.Lex.left _ _ h

theorem below_chunks {a b : Nat × Nat × Nat} (h : a.1 = b.1) (h' : a.2.1 < b.2.1) : Below a b := by
  obtain ⟨a, a', a''⟩ := a
  obtain ⟨b, b', b''⟩ := b
  cases h
  exact Prod.Lex.right _ (Prod.Lex.left _ _ h')

theorem below_weight {a b : Nat × Nat × Nat} (h : a.1 = b.1) (h' : a.2.1 = b.2.1)
    (h'' : a.2.2 < b.2.2) : Below a b := by
  obtain ⟨a, a', a''⟩ := a
  obtain ⟨b, b', b''⟩ := b
  cases h
  cases h'
  exact Prod.Lex.right _ (Prod.Lex.right _ h'')

theorem below_of_le {a b : Nat × Nat × Nat} (h : a.1 = b.1) (h' : a.2.1 ≤ b.2.1)
    (h'' : a.2.2 < b.2.2) : Below a b := by
  rcases Nat.lt_or_eq_of_le h' with hlt | heq
  · exact below_chunks h hlt
  · exact below_weight h heq h''

/-- The turn of everyone but the consumer. -/
def advance (s : Ingest) : Option Ingest :=
  match s.producer with
  | .decoding work chunks =>
    match work.stream.receive? with
    | (some received, stream) => some (s.afterReceive work chunks (some received, stream))
    | (none, stream) =>
      stream.advance.map fun stream =>
        { s with producer := .decoding { work with stream } chunks }
  | _ => s.produceOther

theorem below_deliver {s t : Ingest} {delivery : Delivery} {next : Producer}
    (h : s.deliver delivery next = some t) (hs : next.stage = s.producer.stage)
    (hc : next.chunksLeft ≤ s.producer.chunksLeft)
    (hw : next.weight + 2 ≤ s.producer.weight) : Below t.measure s.measure := by
  simp only [deliver] at h
  split at h
  · cases h
    rcases Nat.lt_or_eq_of_le (Nat.zero_le s.producer.stage) with hlt | heq
    · exact below_stage hlt
    · refine below_of_le heq (Nat.zero_le _) ?_
      simp only [measure, show Producer.weight .ended = 0 from rfl]
      omega
  · split at h
    · cases h
      refine below_of_le hs hc ?_
      simp only [measure, List.length_append, List.length_cons, List.length_nil]
      omega
    · cases h

theorem below_onNextChunk (s : Ingest) (chunks : List ChunkEntry)
    (hp : s.producer = .between chunks) :
    Below (measure { s with producer := .onNextChunk s.settings s.files chunks }) s.measure := by
  have hlt : (Producer.onNextChunk s.settings s.files chunks).stage = 0 ∧
      (Producer.onNextChunk s.settings s.files chunks).chunksLeft < chunks.length + 1 := by
    cases chunks with
    | nil => exact ⟨rfl, Nat.zero_lt_one⟩
    | cons chunk chunks =>
      simp only [Producer.onNextChunk]
      split <;> exact ⟨rfl, by simp [Producer.chunksLeft]⟩
  refine below_chunks ?_ ?_
  · simp only [measure, hp]; exact hlt.1
  · simp only [measure, hp]; exact hlt.2

theorem below_recordFailure (s : Ingest) (chunk : ChunkEntry) (f : Failure)
    (hp : s.producer = .recording chunk f) :
    Below (s.recordFailure chunk f).measure s.measure := by
  have hle : ∃ g files, s.recordFailure chunk f = { s with files, producer := .failing g } := by
    simp only [recordFailure]
    split
    · exact ⟨_, _, rfl⟩
    · split <;> exact ⟨_, _, rfl⟩
  obtain ⟨g, files, hg⟩ := hle
  rw [hg]
  refine below_weight ?_ ?_ ?_ <;>
    simp [measure, hp, Producer.stage, Producer.chunksLeft, Producer.weight]

theorem below_produceOther {s t : Ingest} (h : s.produceOther = some t) :
    Below t.measure s.measure := by
  simp only [produceOther] at h
  split at h
  · next hp =>
    cases h
    refine below_stage ?_
    simp only [measure, listChunks, hp]
    split <;> exact Nat.zero_lt_one
  · next chunks hp => cases h; exact below_onNextChunk s chunks hp
  · next batch work chunks hp =>
    refine below_deliver h ?_ ?_ ?_ <;>
      simp [hp, Producer.stage, Producer.chunksLeft, Producer.weight]
  · next batch chunks hp =>
    refine below_deliver h ?_ ?_ ?_ <;>
      simp [hp, Producer.stage, Producer.chunksLeft, Producer.weight]
  · next chunk f hp => cases h; exact below_recordFailure s chunk f hp
  · next f hp =>
    refine below_deliver h ?_ ?_ ?_ <;>
      simp [hp, Producer.stage, Producer.chunksLeft, Producer.weight]
  · cases h
  · cases h

theorem stage_onReceived (batchSize : Nat) (work : ChunkInProgress) (chunks : List ChunkEntry)
    (received : Received) :
    (Producer.onReceived batchSize work chunks received).stage = 0 ∧
      (Producer.onReceived batchSize work chunks received).chunksLeft ≤ chunks.length + 1 := by
  cases received with
  | appearance d =>
    simp only [Producer.onReceived]
    split <;> exact ⟨rfl, Nat.le_refl _⟩
  | failure f => exact ⟨rfl, Nat.zero_le _⟩
  | finished =>
    simp only [Producer.onReceived]
    split
    · exact ⟨rfl, Nat.le_refl _⟩
    · exact ⟨rfl, Nat.zero_le _⟩

theorem weight_onReceived_le (batchSize : Nat) (work : ChunkInProgress) (chunks : List ChunkEntry)
    (received : Received) :
    (Producer.onReceived batchSize work chunks received).weight ≤ 4 * work.stream.weight + 10 ∧
      ((∀ d, received ≠ .appearance d) →
        (Producer.onReceived batchSize work chunks received).weight ≤ 6) := by
  cases received with
  | appearance d =>
    refine ⟨?_, fun h => absurd rfl (h d)⟩
    simp only [Producer.onReceived]
    split <;> simp only [Producer.weight] <;> omega
  | failure f => simp only [Producer.onReceived, Producer.weight]; omega
  | finished =>
    simp only [Producer.onReceived]
    split <;> simp only [Producer.weight] <;> omega

theorem below_advance {s t : Ingest} (h : s.advance = some t) : Below t.measure s.measure := by
  simp only [advance] at h
  split at h
  · next work chunks hp =>
    split at h
    · next received stream hr =>
      cases h
      have hst := stage_onReceived s.settings.batchSize.val { work with stream } chunks received
      have hw := weight_onReceived_le s.settings.batchSize.val { work with stream } chunks received
      have hwork : Producer.weight (.decoding work chunks) = 4 * work.stream.weight + 8 := rfl
      refine below_of_le ?_ ?_ ?_
      · simp only [measure, afterReceive, hp]; exact hst.1
      · simp only [measure, afterReceive, hp]; exact hst.2
      · simp only [measure, afterReceive, hp, hwork]
        cases received with
        | appearance d =>
          have hlt := DecodeStream.weight_receive?_lt hr
          have hle := hw.1
          simp only at hle
          omega
        | failure f => have hle := hw.2 (by simp); omega
        | finished => have hle := hw.2 (by simp); omega
    · next stream hr =>
      simp only [Option.map_eq_some_iff] at h
      obtain ⟨u, hu, rfl⟩ := h
      have hle := work.stream.weight_receive?_le
      rw [hr] at hle
      have hlt := DecodeStream.weight_advance hu
      refine below_weight ?_ ?_ ?_
      · simp [measure, hp, Producer.stage]
      · simp [measure, hp, Producer.chunksLeft]
      · simp only [measure, hp, Producer.weight] at *
        omega
  · exact below_produceOther h

/-- The consumer's turn: it takes the oldest delivery out. -/
def takeDelivery (s : Ingest) : Option (Delivery × Ingest) :=
  match s.queue with
  | delivery :: queue => some (delivery, { s with queue })
  | [] => none

theorem below_takeDelivery {s t : Ingest} {delivery : Delivery}
    (h : s.takeDelivery = some (delivery, t)) : Below t.measure s.measure := by
  simp only [takeDelivery] at h
  split at h
  · next hq =>
    cases h
    refine below_weight rfl rfl ?_
    simp [measure, hq]
  · cases h

/-- Runs the ingest until a delivery can be taken out; none when it has ended. -/
def receive (s : Ingest) : Option Delivery × Ingest :=
  match s.takeDelivery with
  | some (delivery, t) => (some delivery, t)
  | none =>
    match _h : s.advance with
    | some t => receive t
    | none => (none, s)
termination_by s.measure
decreasing_by exact below_advance _h

theorem below_trans {a b c : Nat × Nat × Nat} (h : Below a b) (h' : Below b c) : Below a c := by
  simp only [Below, Prod.lex_def] at *
  omega

theorem below_receive {s t : Ingest} {delivery : Delivery}
    (h : s.receive = (some delivery, t)) : Below t.measure s.measure := by
  fun_induction receive s with
  | case1 s d u hd => cases h; exact below_takeDelivery hd
  | case2 s hd u ha ih => exact below_trans (ih h) (below_advance ha)
  | case3 s hd ha => cases h

/-- All that a consumer takes out that keeps receiving, and the ingest as it ends. -/
def receiveAll (s : Ingest) : List Delivery × Ingest :=
  match _h : s.receive with
  | (some delivery, t) =>
    let (deliveries, u) := receiveAll t
    (delivery :: deliveries, u)
  | (none, t) => ([], t)
termination_by s.measure
decreasing_by exact below_receive _h

end Ingest

end AppearanceIndex
