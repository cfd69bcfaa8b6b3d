import AppearanceIndex.Decode.Stream
import AppearanceIndex.Total

/-!
# Receiving from a decode stream

`DecodeStream.receive` runs a stream until its consumer receives something, letting the consumer go
first and otherwise the first worker that has not ended. Every such move lowers a weight, the
number of moves that the stream can still make at most, so receiving always comes to an end. An
appearance that is received lowers it too, so a consumer that keeps receiving also comes to an end
(`DecodeStream.receiveAll`).
-/

namespace AppearanceIndex

/-! ## The weight of what is left to do -/

namespace AddressRecord

/-- At most how many moves a record costs. -/
def weight (r : AddressRecord) : Nat := 2 * r.count.toNat + 3

def maxWeight : Nat := 2 * UInt32.size + 3

theorem weight_le (r : AddressRecord) : r.weight ≤ maxWeight := by
  have h := r.count.toNat_lt_size
  simp only [weight, maxWeight]
  omega

end AddressRecord

namespace OpenChunk

theorem length_of_readRecords {chunk : OpenChunk} {shard : Shard} {records : List AddressRecord}
    (h : chunk.readRecords shard = .ok records) : records.length = shard.length := by
  simp only [readRecords] at h
  split at h
  · next bs hr =>
    cases h
    rw [AddressRecord.length_decodeAll, chunk.source.length_read hr]
    exact Nat.mul_div_cancel _ (by decide)
  · cases h

theorem length_of_readSpan {chunk : OpenChunk} {shard : Shard} {record : AddressRecord}
    {apps : List Appearance} (h : chunk.readSpan shard record = .ok apps) :
    apps.length = record.count.toNat := by
  simp only [readSpan] at h
  split at h
  · split at h
    · next bs hr =>
      cases h
      rw [Appearance.length_decodeAll, chunk.source.length_read hr]
      exact Nat.mul_div_cancel _ (by decide)
    · cases h
  · cases h

end OpenChunk

namespace WorkerPhase

def recordsWeight (records : List AddressRecord) : Nat := total AddressRecord.weight records

theorem recordsWeight_le (records : List AddressRecord) :
    recordsWeight records ≤ records.length * AddressRecord.maxWeight := by
  induction records with
  | nil => simp [recordsWeight]
  | cons r rs ih =>
    have h := r.weight_le
    simp only [recordsWeight, total_cons, List.length_cons, Nat.add_mul, Nat.one_mul] at *
    omega

/-- At most how many moves a worker can still make, its sends counted twice. -/
def weight (shard : Shard) : WorkerPhase → Nat
  | waiting => shard.length * AddressRecord.maxWeight + 5
  | loading => shard.length * AddressRecord.maxWeight + 4
  | between records => recordsWeight records + 3
  | fetching record records => recordsWeight records + 2 * record.count.toNat + 5
  | sending _ apps records => recordsWeight records + 2 * apps.length + 4
  | failing _ => 2
  | cancelling => 1
  | ended => 0

/-- What a step adds to the output. -/
def WorkerEffect.sent : WorkerEffect → Nat
  | .send _ => 1
  | _ => 0

theorem weight_next {chunk : OpenChunk} {shard : Shard} {cancelled : Bool} {room : OutputRoom}
    {phase after : WorkerPhase} {effect : WorkerEffect}
    (h : phase.next chunk shard cancelled room = some (after, effect)) :
    after.weight shard + WorkerEffect.sent effect < phase.weight shard := by
  match phase with
  | waiting =>
    simp only [next, Option.some.injEq, Prod.mk.injEq] at h
    obtain ⟨rfl, rfl⟩ := h
    cases cancelled <;> simp [weight, WorkerEffect.sent]
  | loading =>
    simp only [next] at h
    split at h
    · next records hr =>
      simp only [Option.some.injEq, Prod.mk.injEq] at h
      obtain ⟨rfl, rfl⟩ := h
      have hle := recordsWeight_le records
      rw [OpenChunk.length_of_readRecords hr] at hle
      simp only [weight, WorkerEffect.sent]
      omega
    · simp only [Option.some.injEq, Prod.mk.injEq] at h
      obtain ⟨rfl, rfl⟩ := h
      simp only [weight, WorkerEffect.sent]
      omega
  | between [] =>
    simp only [next, Option.some.injEq, Prod.mk.injEq] at h
    obtain ⟨rfl, rfl⟩ := h
    simp [weight, WorkerEffect.sent]
  | between (record :: records) =>
    simp only [next, Option.some.injEq, Prod.mk.injEq] at h
    obtain ⟨rfl, rfl⟩ := h
    cases cancelled with
    | false => simp [weight, WorkerEffect.sent, recordsWeight, AddressRecord.weight]; omega
    | true => simp [weight, WorkerEffect.sent, recordsWeight, AddressRecord.weight]
  | fetching record records =>
    simp only [next] at h
    split at h
    · next apps ha =>
      simp only [Option.some.injEq, Prod.mk.injEq] at h
      obtain ⟨rfl, rfl⟩ := h
      simp only [weight, WorkerEffect.sent, OpenChunk.length_of_readSpan ha]
      omega
    · simp only [Option.some.injEq, Prod.mk.injEq] at h
      obtain ⟨rfl, rfl⟩ := h
      simp only [weight, WorkerEffect.sent]
      omega
  | sending _ [] records =>
    simp only [next, Option.some.injEq, Prod.mk.injEq] at h
    obtain ⟨rfl, rfl⟩ := h
    simp [weight, WorkerEffect.sent]
  | sending _ (app :: apps) records =>
    simp only [next] at h
    split at h
    · simp only [Option.some.injEq, Prod.mk.injEq] at h
      obtain ⟨rfl, rfl⟩ := h
      simp only [weight, WorkerEffect.sent, List.length_cons]
      omega
    · cases h
    · simp only [Option.some.injEq, Prod.mk.injEq] at h
      obtain ⟨rfl, rfl⟩ := h
      simp only [weight, WorkerEffect.sent]
      omega
  | failing _ =>
    simp only [next, Option.some.injEq, Prod.mk.injEq] at h
    obtain ⟨rfl, rfl⟩ := h
    simp [weight, WorkerEffect.sent]
  | cancelling =>
    simp only [next, Option.some.injEq, Prod.mk.injEq] at h
    obtain ⟨rfl, rfl⟩ := h
    simp [weight, WorkerEffect.sent]
  | ended => cases h

end WorkerPhase

namespace DecodeStream

def workersWeight (workers : List Worker) : Nat :=
  total (fun w => w.phase.weight w.shard) workers

/-- At most how many moves the workers, the closing of the output and a consumer can make. -/
def weight (s : DecodeStream) : Nat :=
  workersWeight s.workers + s.output.length + (!s.closed).toNat

theorem workersWeight_set {workers : List Worker} {i : Nat} {worker : Worker}
    (h : workers[i]? = some worker) (after : Worker) :
    workersWeight (workers.set i after) + worker.phase.weight worker.shard
      = workersWeight workers + after.phase.weight after.shard :=
  total_set _ h after

theorem weight_work {s t : DecodeStream} {i : Nat} (h : s.work i = some t) :
    t.weight < s.weight := by
  simp only [work] at h
  split at h
  · cases h
  · next worker hw =>
    split at h
    · cases h
    · next phase effect hn =>
      cases h
      have hlt := WorkerPhase.weight_next hn
      have hset := workersWeight_set hw { worker with phase }
      cases effect <;>
        simp only [withEffect, weight, WorkerPhase.WorkerEffect.sent, List.length_append,
          List.length_cons, List.length_nil] at * <;> omega

/-! ## Receiving -/

/-- The consumer's turn: it looks at the errors and then at the output. -/
def receive? (s : DecodeStream) : Option Received × DecodeStream :=
  match s.poll with
  | (some received, s) => (some received, s)
  | (none, s) => s.take

/-- The turn of the others: the first worker that has not ended makes a step, or the output is
closed behind all of them. -/
def advance (s : DecodeStream) : Option DecodeStream :=
  match s.workers.findIdx? (·.phase.isActive) with
  | some i => s.work i
  | none => if s.closed then none else some { s with closed := true }

theorem weight_poll (s : DecodeStream) : s.poll.2.weight = s.weight := by
  simp only [poll]
  split
  · rfl
  · split <;> rfl

theorem weight_take_le (s : DecodeStream) : s.take.2.weight ≤ s.weight := by
  simp only [take]
  split
  · next h => simp only [weight, h, List.length_cons]; omega
  · split
    · simp only [finish]
      split
      · exact Nat.le_refl _
      · split <;> exact Nat.le_refl _
    · exact Nat.le_refl _

theorem weight_receive?_le (s : DecodeStream) : s.receive?.2.weight ≤ s.weight := by
  simp only [receive?]
  split
  · next h => exact Nat.le_of_eq (by rw [← s.weight_poll, h])
  · next t h => rw [← s.weight_poll, h]; exact t.weight_take_le

theorem weight_advance {s t : DecodeStream} (h : s.advance = some t) : t.weight < s.weight := by
  simp only [advance] at h
  split at h
  · exact weight_work h
  · split at h
    · cases h
    · next hc => cases h; simp [weight, hc]

/-- Runs the stream until the consumer receives something. -/
def receive (s : DecodeStream) : Received × DecodeStream :=
  match _hr : s.receive? with
  | (some received, t) => (received, t)
  | (none, t) =>
    match _ha : t.advance with
    | some u => receive u
    | none => (.finished, t)
termination_by s.weight
decreasing_by
  have hle := s.weight_receive?_le
  rw [_hr] at hle
  exact Nat.lt_of_lt_of_le (weight_advance _ha) hle

theorem weight_receive?_lt {s t : DecodeStream} {d : DecodedAppearance}
    (h : s.receive? = (some (.appearance d), t)) : t.weight < s.weight := by
  simp only [receive?] at h
  split at h
  · next u hp =>
    simp only [poll] at hp
    split at hp
    · cases hp; cases h
    · split at hp
      · cases hp; cases h
      · cases hp
  · next u hp =>
    have hw := s.weight_poll
    rw [hp] at hw
    simp only [take] at h
    split at h
    · next ho => cases h; rw [← hw]; simp only [weight, ho, List.length_cons]; omega
    · split at h
      · simp only [finish] at h
        split at h
        · cases h
        · split at h <;> cases h
      · cases h

theorem weight_receive_lt {s t : DecodeStream} {d : DecodedAppearance}
    (h : s.receive = (.appearance d, t)) : t.weight < s.weight := by
  fun_induction receive s with
  | case1 s received u hr => cases h; exact weight_receive?_lt hr
  | case2 s u hr v ha ih =>
    have hle := s.weight_receive?_le
    rw [hr] at hle
    exact Nat.lt_trans (ih h) (Nat.lt_of_lt_of_le (weight_advance ha) hle)
  | case3 s u hr ha => cases h

/-- What a consumer receives that takes `limit` appearances at most: the appearances, how the
stream ended if it did, and the stream as the consumer leaves it. -/
def receiveUpTo (s : DecodeStream) : (limit : Nat) →
    List DecodedAppearance × Option Received × DecodeStream
  | 0 => ([], none, s)
  | limit + 1 =>
    match s.receive with
    | (.appearance d, t) =>
      let (apps, ending, u) := t.receiveUpTo limit
      (d :: apps, ending, u)
    | (ending, t) => ([], some ending, t)

/-- What a consumer receives that keeps receiving, after the appearances that it has already. -/
def receiveAllAfter (received : List DecodedAppearance) (s : DecodeStream) :
    List DecodedAppearance × Received × DecodeStream :=
  match _h : s.receive with
  | (.appearance d, t) => receiveAllAfter (d :: received) t
  | (ending, t) => (received.reverse, ending, t)
termination_by s.weight
decreasing_by exact weight_receive_lt _h

/-- What a consumer receives that keeps receiving: the appearances and how the stream ends. -/
def receiveAll (s : DecodeStream) : List DecodedAppearance × Received × DecodeStream :=
  receiveAllAfter [] s

end DecodeStream

end AppearanceIndex
