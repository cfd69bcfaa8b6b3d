import AppearanceIndex.Proofs.Decode.Course

/-!
# Counting what workers send

`OpenChunk.decodeShard` is the work of one shard without interruption: the appearances of its
records in order, and the failure that ends it early. Along every course, what the consumer took
from one worker is a prefix of that sequence, and when the consumer receives the end and no failure
before it, it took the whole sequence of every shard.

The invariant is `WorkerPhase.HasSent`: the phase of a worker says what it has sent so far. A worker
that stops early leaves a cancelled token behind, and a token that is cancelled keeps the end from
being received.
-/

namespace AppearanceIndex

namespace OpenChunk

/-- What records decode to one after another, and the failure that ends it. -/
def decodeRecords (chunk : OpenChunk) (shard : Shard) :
    List AddressRecord → List DecodedAppearance × Option Failure
  | [] => ([], none)
  | record :: records =>
    match chunk.readSpan shard record with
    | .ok apps =>
      let (items, failure) := chunk.decodeRecords shard records
      (apps.map (DecodedAppearance.mk record.address) ++ items, failure)
    | .error f => ([], some f)

/-- What a shard decodes to when nothing interrupts its worker, and the failure that ends it. -/
def decodeShard (chunk : OpenChunk) (shard : Shard) : List DecodedAppearance × Option Failure :=
  match chunk.readRecords shard with
  | .ok records => chunk.decodeRecords shard records
  | .error f => ([], some f)

/-- The shards among which so many workers divide the address table. -/
def shards (chunk : OpenChunk) (maxWorkers : Positive) : List Shard :=
  planShards chunk.header.addressCount.toNat maxWorkers.val

/-- What each shard decodes to, in the order of the shards. -/
def sequences (chunk : OpenChunk) (maxWorkers : Positive) : List (List DecodedAppearance) :=
  (chunk.shards maxWorkers).map fun shard => (chunk.decodeShard shard).1

end OpenChunk

namespace Sent

def from_ (worker : Nat) (items : List Sent) : List DecodedAppearance :=
  (items.filter (·.worker = worker)).map Sent.decoded

@[simp] theorem from_nil (worker : Nat) : from_ worker [] = [] := rfl

@[simp] theorem from_append (worker : Nat) (items more : List Sent) :
    from_ worker (items ++ more) = from_ worker items ++ from_ worker more := by
  simp [from_]

theorem from_own (worker : Nat) (ds : List DecodedAppearance) :
    from_ worker (ds.map (Sent.mk worker)) = ds := by
  simp [from_, List.filter_map, Function.comp_def]

theorem from_other {worker other : Nat} (h : other ≠ worker) (ds : List DecodedAppearance) :
    from_ worker (ds.map (Sent.mk other)) = [] := by
  simp [from_, List.filter_map, Function.comp_def, h]

/-- The items are sent by the owners of the sequences, each of which sent a prefix of its own. -/
def InterleavePrefixes (items : List Sent) (sequences : List (List DecodedAppearance)) : Prop :=
  (∀ item ∈ items, item.worker < sequences.length) ∧
    ∀ i sequence, sequences[i]? = some sequence → from_ i items <+: sequence

/-- The items are sent by the owners of the sequences, each of which sent the whole of its own. -/
def Interleave (items : List Sent) (sequences : List (List DecodedAppearance)) : Prop :=
  (∀ item ∈ items, item.worker < sequences.length) ∧
    ∀ i sequence, sequences[i]? = some sequence → from_ i items = sequence

end Sent

namespace WorkerEffect

def items : WorkerEffect → List DecodedAppearance
  | send d => [d]
  | _ => []

def cancels : WorkerEffect → Bool
  | cancel => true
  | _ => false

end WorkerEffect

namespace WorkerPhase

/-- A worker in this phase has sent exactly `done`. -/
def HasSent (chunk : OpenChunk) (shard : Shard) (cancelled : Bool) (done : List DecodedAppearance) :
    WorkerPhase → Prop
  | waiting | loading => done = []
  | between records =>
    chunk.decodeShard shard =
      (done ++ (chunk.decodeRecords shard records).1, (chunk.decodeRecords shard records).2)
  | fetching record records =>
    chunk.decodeShard shard =
      (done ++ (chunk.decodeRecords shard (record :: records)).1,
        (chunk.decodeRecords shard (record :: records)).2)
  | sending address apps records =>
    chunk.decodeShard shard =
      (done ++ (apps.map (DecodedAppearance.mk address) ++ (chunk.decodeRecords shard records).1),
        (chunk.decodeRecords shard records).2)
  | failing f => chunk.decodeShard shard = (done, some f)
  | cancelling => (chunk.decodeShard shard).1 = done
  | ended =>
    chunk.decodeShard shard = (done, none) ∨
      (cancelled = true ∧ done <+: (chunk.decodeShard shard).1)

variable {chunk : OpenChunk} {shard : Shard} {cancelled : Bool} {done : List DecodedAppearance}

theorem HasSent.isPrefix {phase : WorkerPhase} (h : phase.HasSent chunk shard cancelled done) :
    done <+: (chunk.decodeShard shard).1 := by
  cases phase with
  | waiting | loading =>
    have hd : done = [] := h
    simp [hd]
  | between | fetching | sending =>
    rw [show chunk.decodeShard shard = _ from h]
    exact List.prefix_append _ _
  | failing f =>
    have hall : (chunk.decodeShard shard).1 = done := congrArg Prod.fst h
    exact hall ▸ List.prefix_rfl
  | cancelling =>
    have hall : (chunk.decodeShard shard).1 = done := h
    exact hall ▸ List.prefix_rfl
  | ended =>
    rcases h with h | ⟨-, h⟩
    · have hall : (chunk.decodeShard shard).1 = done := congrArg Prod.fst h
      exact hall ▸ List.prefix_rfl
    · exact h

/-- What was sent stays what was sent when the token is cancelled. -/
theorem HasSent.cancel {phase : WorkerPhase} (h : phase.HasSent chunk shard cancelled done)
    (more : Bool) : phase.HasSent chunk shard (cancelled || more) done := by
  cases phase with
  | ended =>
    rcases h with h | ⟨hx, h⟩
    · exact .inl h
    · exact .inr ⟨by simp [hx], h⟩
  | _ => exact h

/-- Each step keeps count of what is sent, unless nobody receives it any more. -/
theorem HasSent.next {phase after : WorkerPhase} {effect : WorkerEffect} {room : OutputRoom}
    (h : phase.HasSent chunk shard cancelled done) (hroom : room ≠ .abandoned)
    (hn : phase.next chunk shard cancelled room = some (after, effect)) :
    after.HasSent chunk shard (cancelled || effect.cancels) (done ++ effect.items) := by
  cases phase with
  | waiting =>
    have hd : done = [] := h
    simp only [WorkerPhase.next, Option.some.injEq, Prod.mk.injEq] at hn
    obtain ⟨rfl, rfl⟩ := hn
    cases cancelled with
    | false => exact hd ▸ rfl
    | true => exact .inr ⟨rfl, by simp [hd, WorkerEffect.items]⟩
  | loading =>
    have hd : done = [] := h
    simp only [WorkerPhase.next] at hn
    split at hn
    · next records hr =>
      cases hn
      simp [HasSent, OpenChunk.decodeShard, hr, hd, WorkerEffect.items]
    · next f hr =>
      cases hn
      simp [HasSent, OpenChunk.decodeShard, hr, hd, WorkerEffect.items]
  | between records =>
    have heq : chunk.decodeShard shard = _ := h
    cases records with
    | nil =>
      simp only [WorkerPhase.next, Option.some.injEq, Prod.mk.injEq] at hn
      obtain ⟨rfl, rfl⟩ := hn
      exact .inl (by simpa [OpenChunk.decodeRecords, WorkerEffect.items] using heq)
    | cons record records =>
      simp only [WorkerPhase.next, Option.some.injEq, Prod.mk.injEq] at hn
      obtain ⟨rfl, rfl⟩ := hn
      cases cancelled with
      | false => simpa [HasSent, WorkerEffect.items] using heq
      | true => exact .inr ⟨rfl, by simpa [WorkerEffect.items] using h.isPrefix⟩
  | fetching record records =>
    have heq : chunk.decodeShard shard = _ := h
    simp only [WorkerPhase.next] at hn
    split at hn
    · next apps ha =>
      cases hn
      simpa [HasSent, OpenChunk.decodeRecords, ha, WorkerEffect.items] using heq
    · next f ha =>
      cases hn
      simpa [HasSent, OpenChunk.decodeRecords, ha, WorkerEffect.items] using heq
  | sending address apps records =>
    have heq : chunk.decodeShard shard = _ := h
    cases apps with
    | nil =>
      simp only [WorkerPhase.next, Option.some.injEq, Prod.mk.injEq] at hn
      obtain ⟨rfl, rfl⟩ := hn
      simpa [HasSent, WorkerEffect.items] using heq
    | cons app apps =>
      cases room with
      | free =>
        simp only [WorkerPhase.next, Option.some.injEq, Prod.mk.injEq] at hn
        obtain ⟨rfl, rfl⟩ := hn
        simpa [HasSent, WorkerEffect.items] using heq
      | full => cases hn
      | abandoned => exact absurd rfl hroom
  | failing f =>
    have heq : chunk.decodeShard shard = _ := h
    simp only [WorkerPhase.next, Option.some.injEq, Prod.mk.injEq] at hn
    obtain ⟨rfl, rfl⟩ := hn
    simp [HasSent, heq, WorkerEffect.items]
  | cancelling =>
    simp only [WorkerPhase.next, Option.some.injEq, Prod.mk.injEq] at hn
    obtain ⟨rfl, rfl⟩ := hn
    exact .inr ⟨by simp [WorkerEffect.cancels], by simpa [WorkerEffect.items] using h.isPrefix⟩
  | ended => cases hn

end WorkerPhase

namespace DecodeStream

/-! ## What a worker's step changes -/

@[simp] theorem workers_withEffect (s : DecodeStream) (i : Nat) (effect : WorkerEffect) :
    (s.withEffect i effect).workers = s.workers := by cases effect <;> rfl

@[simp] theorem output_withEffect (s : DecodeStream) (i : Nat) (effect : WorkerEffect) :
    (s.withEffect i effect).output = s.output ++ effect.items.map (Sent.mk i) := by
  cases effect <;> simp [withEffect, WorkerEffect.items]

@[simp] theorem cancelled_withEffect (s : DecodeStream) (i : Nat) (effect : WorkerEffect) :
    (s.withEffect i effect).cancelled = (s.cancelled || effect.cancels) := by
  cases effect <;> simp [withEffect, WorkerEffect.cancels]

@[simp] theorem chunk_withEffect (s : DecodeStream) (i : Nat) (effect : WorkerEffect) :
    (s.withEffect i effect).chunk = s.chunk := by cases effect <;> rfl

@[simp] theorem isReceiving_withEffect (s : DecodeStream) (i : Nat) (effect : WorkerEffect) :
    (s.withEffect i effect).isReceiving = s.isReceiving := by cases effect <;> rfl

theorem room_ne_abandoned {s : DecodeStream} (h : s.isReceiving = true) : s.room ≠ .abandoned := by
  have ha : s.abandoned = false := by
    simp only [isReceiving, Bool.and_eq_true, Bool.not_eq_true'] at h
    exact h.1
  unfold room
  rw [ha]
  by_cases hlt : s.output.length < s.capacity.val <;> simp [hlt]

/-! ## What the workers have sent -/

/-- Every worker has sent what the consumer took from it and what is still in the output. -/
def KeepsCount (taken : List Sent) (s : DecodeStream) : Prop :=
  ∀ (i : Nat) (worker : Worker), s.workers[i]? = some worker →
    worker.phase.HasSent s.chunk worker.shard s.cancelled (Sent.from_ i (taken ++ s.output))

theorem keepsCount_work {s : DecodeStream} {taken : List Sent} {i : Nat} {worker : Worker}
    {phase : WorkerPhase} {effect : WorkerEffect} (h : s.KeepsCount taken)
    (hr : s.isReceiving = true) (hw : s.workers[i]? = some worker)
    (hn : worker.phase.next s.chunk worker.shard s.cancelled s.room = some (phase, effect)) :
    KeepsCount taken (({ s with workers := s.workers.set i { worker with phase } } :
      DecodeStream).withEffect i effect) := by
  intro j other hother
  simp only [workers_withEffect, chunk_withEffect, cancelled_withEffect, output_withEffect]
    at hother ⊢
  rw [← List.append_assoc, Sent.from_append]
  by_cases hij : i = j
  · subst hij
    have hlt : i < s.workers.length := (List.getElem?_eq_some_iff.mp hw).1
    rw [List.getElem?_set_self hlt, Option.some.injEq] at hother
    subst hother
    rw [Sent.from_own]
    exact (h i worker hw).next (room_ne_abandoned hr) hn
  · rw [List.getElem?_set_ne hij] at hother
    rw [Sent.from_other hij, List.append_nil]
    exact (h j other hother).cancel _

theorem keepsCount_ofChunk (chunk : OpenChunk) (maxWorkers capacity : Positive) :
    (ofChunk chunk maxWorkers capacity).KeepsCount [] := by
  intro i worker hw
  simp only [ofChunk, List.getElem?_map, Option.map_eq_some_iff] at hw
  obtain ⟨shard, -, rfl⟩ := hw
  rfl

variable {chunk : OpenChunk} {maxWorkers capacity : Positive} {history : DecodeHistory}
  {t : DecodeStream}

/-- As long as the consumer may receive, nothing that was sent is lost. -/
theorem Course.keepsCount (h : (ofChunk chunk maxWorkers capacity).Course history t) :
    t.isReceiving = true → t.KeepsCount history.taken := by
  refine h.induct (P := fun history t => t.isReceiving = true → t.KeepsCount history.taken)
    (fun _ => keepsCount_ofChunk chunk maxWorkers capacity) ?_
  intro history t u move received _ ih hs hu
  simp only [DecodeHistory.taken_append, DecodeHistory.taken_single]
  cases hs with
  | work hw hn =>
    simp only [isReceiving_withEffect] at hu
    simpa [DecodeEvent.taken] using keepsCount_work (ih hu) hu hw hn
  | close he hc => simpa [DecodeEvent.taken, KeepsCount] using ih hu
  | pollEnd hr hf => simpa [DecodeEvent.taken] using ih hu
  | pollError hr hf he =>
    intro i worker hw
    simpa [DecodeEvent.taken] using (ih hr i worker hw).cancel true
  | pollNothing hr hf he => simpa [DecodeEvent.taken, KeepsCount] using ih hu
  | @takeItem sent output hr hf ho =>
    have hi := ih hr
    simp only [KeepsCount, ho] at hi
    simpa [DecodeEvent.taken, KeepsCount, ho] using hi
  | takeNothing hr hf ho hc => simpa [DecodeEvent.taken, KeepsCount] using ih hu
  | takeError hr hf ho hc he =>
    intro i worker hw
    simpa [DecodeEvent.taken] using (ih hr i worker hw).cancel true
  | takeCancelled hr hf ho hc he hx => simpa [DecodeEvent.taken, KeepsCount] using ih hu
  | takeEnd hr hf ho hc he hx => simpa [DecodeEvent.taken, KeepsCount] using ih hu
  | cancel =>
    intro i worker hw
    simpa [DecodeEvent.taken, DecodeStream.cancel] using (ih hu i worker hw).cancel true
  | drain hr => simp [isReceiving] at hu
  | discard hd ho => simp [isReceiving, hd] at hu
  | abandon => simp [isReceiving] at hu

/-- Whatever is in the output or was taken out of it was sent by a worker of the stream. -/
theorem Course.worker_lt (h : (ofChunk chunk maxWorkers capacity).Course history t) :
    ∀ item ∈ history.taken ++ t.output, item.worker < t.workers.length := by
  refine h.induct
    (P := fun history t => ∀ item ∈ history.taken ++ t.output, item.worker < t.workers.length)
    (by simp [DecodeHistory.taken, ofChunk]) ?_
  intro history t u move received _ ih hs item
  rw [DecodeHistory.taken_append, DecodeHistory.taken_single]
  cases hs with
  | @work i worker phase effect hw hn =>
    have hlt : i < t.workers.length := (List.getElem?_eq_some_iff.mp hw).1
    simp only [DecodeEvent.taken, List.append_nil, output_withEffect, workers_withEffect,
      List.length_set, ← List.append_assoc]
    intro hmem
    rcases List.mem_append.mp hmem with hold | hnew
    · exact ih item hold
    · obtain ⟨d, -, rfl⟩ := List.mem_map.mp hnew
      exact hlt
  | @takeItem sent output hr hf ho =>
    intro hmem
    exact ih item (by simpa [DecodeEvent.taken, ho] using hmem)
  | @discard sent output hd ho =>
    intro hmem
    refine ih item ?_
    simp only [DecodeEvent.taken, List.append_nil, List.mem_append] at hmem
    rw [ho, List.mem_append, List.mem_cons]
    exact hmem.imp_right .inr
  | abandon =>
    intro hmem
    simp only [DecodeEvent.taken, List.append_nil] at hmem
    exact ih item (List.mem_append_left _ hmem)
  | cancel =>
    intro hmem
    exact ih item (by simpa [DecodeEvent.taken, DecodeStream.cancel] using hmem)
  | _ =>
    intro hmem
    exact ih item (by simpa [DecodeEvent.taken] using hmem)

/-- The workers of a stream go on with the shards that were planned. -/
theorem Course.planned (h : (ofChunk chunk maxWorkers capacity).Course history t) :
    t.workers.map Worker.shard = chunk.shards maxWorkers := by
  rw [h.shards_eq]
  simp [ofChunk, OpenChunk.shards, Function.comp_def]

theorem shard_of_worker (h : (ofChunk chunk maxWorkers capacity).Course history t) {i : Nat}
    {shard : Shard} (hi : (chunk.shards maxWorkers)[i]? = some shard) :
    ∃ phase, t.workers[i]? = some ⟨shard, phase⟩ := by
  rw [← h.planned, List.getElem?_map, Option.map_eq_some_iff] at hi
  obtain ⟨worker, hw, rfl⟩ := hi
  exact ⟨worker.phase, hw⟩

theorem length_workers_of_course (h : (ofChunk chunk maxWorkers capacity).Course history t) :
    t.workers.length = (chunk.sequences maxWorkers).length := by
  unfold OpenChunk.sequences
  rw [← h.planned, List.length_map, List.length_map]

/-- In every state, the consumer took prefixes of the sequences, even after it went away. -/
theorem Course.taken_interleavePrefixes
    (h : (ofChunk chunk maxWorkers capacity).Course history t) :
    Sent.InterleavePrefixes history.taken (chunk.sequences maxWorkers) := by
  constructor
  · intro item hmem
    rw [← length_workers_of_course h]
    exact h.worker_lt item (List.mem_append_left _ hmem)
  · refine h.induct (P := fun history _ => ∀ i sequence,
      (chunk.sequences maxWorkers)[i]? = some sequence →
        Sent.from_ i history.taken <+: sequence) (by simp [DecodeHistory.taken]) ?_
    intro history t u move received hc ih hs i sequence hi
    rw [DecodeHistory.taken_append, DecodeHistory.taken_single]
    cases hs with
    | @takeItem sent output hr hf ho =>
      -- only here does the consumer take something, and here it is still receiving
      rw [OpenChunk.sequences, List.getElem?_map, Option.map_eq_some_iff] at hi
      obtain ⟨shard, hshard, rfl⟩ := hi
      obtain ⟨phase, hw⟩ := shard_of_worker hc hshard
      have hp := (hc.keepsCount hr i _ hw).isPrefix
      rw [ho, List.append_cons, Sent.from_append, hc.chunk_eq] at hp
      have htaken : (DecodeEvent.taken ⟨t, .take, some (.appearance sent.decoded),
          { t with output, checked := false }⟩) = [sent] := by simp [DecodeEvent.taken, ho]
      rw [htaken]
      exact (List.prefix_append _ _).trans hp
    | _ => simpa [DecodeEvent.taken] using ih i sequence hi

end DecodeStream

end AppearanceIndex
