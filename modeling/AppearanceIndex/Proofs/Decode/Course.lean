import AppearanceIndex.Decode.Stream

/-!
# Courses of a decode

`DecodeStream.Transition` is `DecodeStream.step` as a relation, one constructor for each way in
which a participant can move. A `DecodeStream.Course` is any sequence of moves, recorded event by
event in a `DecodeHistory`; what was received, taken out of the output, or reported by workers is
read off the history. Every order in which workers, consumer and holders of the token can move is a
course.
-/

namespace AppearanceIndex

namespace DecodeStream

/-! ## Single moves -/

/-- One move of one participant, and what the consumer receives in it. -/
inductive Transition (s : DecodeStream) : DecodeMove → Option Received → DecodeStream → Prop where
  | work {i : Nat} {worker : Worker} {phase : WorkerPhase} {effect : WorkerEffect}
      (hw : s.workers[i]? = some worker)
      (hn : worker.phase.next s.chunk worker.shard s.cancelled s.room = some (phase, effect)) :
      Transition s (.work i) none
        (({ s with workers := s.workers.set i { worker with phase } } : DecodeStream).withEffect
          i effect)
  | close (he : s.allEnded = true) (hc : s.closed = false) :
      Transition s .close none { s with closed := true }
  | pollEnd (hr : s.isReceiving = true) (hf : s.finished = true) :
      Transition s .poll (some .finished) s
  | pollError {f : Failure} {errors : List Failure} (hr : s.isReceiving = true)
      (hf : s.finished = false) (he : s.errors = f :: errors) :
      Transition s .poll (some (.failure f))
        { s with errors, finished := true, cancelled := true }
  | pollNothing (hr : s.isReceiving = true) (hf : s.finished = false) (he : s.errors = []) :
      Transition s .poll none { s with checked := true }
  | takeItem {sent : Sent} {output : List Sent} (hr : s.isReceiving = true)
      (hf : s.finished = false) (ho : s.output = sent :: output) :
      Transition s .take (some (.appearance sent.decoded)) { s with output, checked := false }
  | takeNothing (hr : s.isReceiving = true) (hf : s.finished = false) (ho : s.output = [])
      (hc : s.closed = false) : Transition s .take none { s with checked := false }
  | takeError {f : Failure} {errors : List Failure} (hr : s.isReceiving = true)
      (hf : s.finished = false) (ho : s.output = []) (hc : s.closed = true)
      (he : s.errors = f :: errors) :
      Transition s .take (some (.failure f))
        { s with errors, finished := true, cancelled := true }
  | takeCancelled (hr : s.isReceiving = true) (hf : s.finished = false) (ho : s.output = [])
      (hc : s.closed = true) (he : s.errors = []) (hx : s.cancelled = true) :
      Transition s .take (some (.failure (.ofError .cancelled))) { s with finished := true }
  | takeEnd (hr : s.isReceiving = true) (hf : s.finished = false) (ho : s.output = [])
      (hc : s.closed = true) (he : s.errors = []) (hx : s.cancelled = false) :
      Transition s .take (some .finished) { s with finished := true }
  | cancel : Transition s .cancel none s.cancel
  | drain (hr : s.isReceiving = true) :
      Transition s .drain none { s with draining := true, cancelled := true }
  | discard {sent : Sent} {output : List Sent} (hd : s.draining = true)
      (ho : s.output = sent :: output) : Transition s .discard none { s with output }
  | abandon :
      Transition s .abandon none { s with abandoned := true, cancelled := true, output := [] }

theorem transition_of_work {s t : DecodeStream} {i : Nat} (h : s.work i = some t) :
    s.Transition (.work i) none t := by
  unfold work at h
  split at h
  · cases h
  · next worker hw =>
    split at h
    · cases h
    · next phase effect hn =>
      cases h
      exact .work hw hn

theorem transition_of_poll {s : DecodeStream} (hr : s.isReceiving = true) :
    s.Transition .poll s.poll.1 s.poll.2 := by
  unfold poll
  split
  · next hf => exact .pollEnd hr hf
  · next hf =>
    have hf : s.finished = false := by simpa using hf
    split
    · next f errors he => exact .pollError hr hf he
    · next he => exact .pollNothing hr hf he

theorem transition_of_finish {s : DecodeStream} (hr : s.isReceiving = true)
    (hf : s.finished = false) (ho : s.output = []) (hc : s.closed = true) :
    s.Transition .take (some s.finish.1) s.finish.2 := by
  unfold finish
  split
  · next f errors he => exact .takeError hr hf ho hc he
  · next he =>
    split
    · next hx => exact .takeCancelled hr hf ho hc he hx
    · next hx => exact .takeEnd hr hf ho hc he (by simpa using hx)

theorem transition_of_take {s : DecodeStream} (hr : s.isReceiving = true)
    (hf : s.finished = false) : s.Transition .take s.take.1 s.take.2 := by
  unfold take
  split
  · next sent output ho => exact .takeItem hr hf ho
  · next ho =>
    split
    · next hc => exact transition_of_finish hr hf ho hc
    · next hc => exact .takeNothing hr hf ho (by simpa using hc)

/-- Every step is one of the listed moves. -/
theorem transition_of_step {s t : DecodeStream} {move : DecodeMove} {received : Option Received}
    (h : s.step move = some (received, t)) : s.Transition move received t := by
  cases move with
  | work i =>
    simp only [step, Option.map_eq_some_iff, Prod.mk.injEq] at h
    obtain ⟨u, hu, rfl, rfl⟩ := h
    exact transition_of_work hu
  | close =>
    simp only [step, Option.ite_none_right_eq_some, Bool.and_eq_true, Bool.not_eq_true'] at h
    obtain ⟨⟨he, hc⟩, heq⟩ := h
    cases heq
    exact .close he hc
  | poll =>
    simp only [step, Option.ite_none_right_eq_some, Option.some.injEq] at h
    obtain ⟨hr, heq⟩ := h
    have ht := transition_of_poll hr
    rwa [heq] at ht
  | take =>
    simp only [step, Option.ite_none_right_eq_some, Option.some.injEq, Bool.and_eq_true,
      Bool.not_eq_true'] at h
    obtain ⟨⟨⟨hr, -⟩, hf⟩, heq⟩ := h
    have ht := transition_of_take hr hf
    rwa [heq] at ht
  | cancel =>
    cases h
    exact .cancel
  | drain =>
    simp only [step, Option.ite_none_right_eq_some] at h
    obtain ⟨hr, heq⟩ := h
    cases heq
    exact .drain hr
  | discard =>
    simp only [step] at h
    split at h
    · next hd ho =>
      cases h
      exact .discard hd ho
    · cases h
  | abandon =>
    cases h
    exact .abandon

end DecodeStream

/-! ## Histories -/

/-- One move, what the consumer received in it, and the stream before and after. -/
structure DecodeEvent where
  before : DecodeStream
  move : DecodeMove
  received : Option Received
  after : DecodeStream

namespace DecodeEvent

def taken (e : DecodeEvent) : List Sent :=
  match e.move, e.received with
  | .take, some (.appearance _) => e.before.output.take 1
  | _, _ => []

/-- The worker that failed and its failure; it has yet to report it. -/
def failed (e : DecodeEvent) : List (Nat × Failure) :=
  match e.move with
  | .work i =>
    match (e.after.workers[i]?).map Worker.phase with
    | some (.failing f) => [(i, f)]
    | _ => []
  | _ => []

def reported (e : DecodeEvent) : List (Nat × Failure) :=
  match e.move with
  | .work i =>
    match (e.before.workers[i]?).map Worker.phase with
    | some (.failing f) => [(i, f)]
    | _ => []
  | _ => []

/-- Somebody who is not a worker cancels the token before the end was received. -/
def cancels (e : DecodeEvent) : Bool := e.move = .cancel && !e.before.finished

end DecodeEvent

abbrev DecodeHistory := List DecodeEvent

namespace DecodeHistory

def received (history : DecodeHistory) : List Received := history.filterMap (·.received)

/-- What the consumer took out of the output, with the workers that sent it. -/
def taken (history : DecodeHistory) : List Sent := history.flatMap (·.taken)

def failures (history : DecodeHistory) : List (Nat × Failure) := history.flatMap (·.failed)

def reports (history : DecodeHistory) : List (Nat × Failure) := history.flatMap (·.reported)

/-- The consumer or a holder of the token cancelled before the end was received. -/
def cancelledEarly (history : DecodeHistory) : Bool := history.any (·.cancels)

@[simp] theorem received_append (h k : DecodeHistory) :
    received (h ++ k) = received h ++ received k := List.filterMap_append

@[simp] theorem taken_append (h k : DecodeHistory) : taken (h ++ k) = taken h ++ taken k :=
  List.flatMap_append

@[simp] theorem failures_append (h k : DecodeHistory) :
    failures (h ++ k) = failures h ++ failures k := List.flatMap_append

@[simp] theorem reports_append (h k : DecodeHistory) :
    reports (h ++ k) = reports h ++ reports k := List.flatMap_append

@[simp] theorem cancelledEarly_append (h k : DecodeHistory) :
    cancelledEarly (h ++ k) = (cancelledEarly h || cancelledEarly k) := List.any_append

@[simp] theorem received_single (e : DecodeEvent) : received [e] = e.received.toList := by
  cases hr : e.received <;> simp [received, hr]

@[simp] theorem taken_single (e : DecodeEvent) : taken [e] = e.taken := by simp [taken]

@[simp] theorem failures_single (e : DecodeEvent) : failures [e] = e.failed := by simp [failures]

@[simp] theorem reports_single (e : DecodeEvent) : reports [e] = e.reported := by simp [reports]

@[simp] theorem cancelledEarly_single (e : DecodeEvent) : cancelledEarly [e] = e.cancels := by
  simp [cancelledEarly]

end DecodeHistory

namespace DecodeStream

inductive Course (s : DecodeStream) : DecodeHistory → DecodeStream → Prop where
  | start : Course s [] s
  | step {history : DecodeHistory} {t u : DecodeStream} {move : DecodeMove}
      {received : Option Received} :
      Course s history t → t.step move = some (received, u) →
      Course s (history ++ [⟨t, move, received, u⟩]) u

theorem Course.trans {s t u : DecodeStream} {h k : DecodeHistory} (h1 : s.Course h t)
    (h2 : t.Course k u) : s.Course (h ++ k) u := by
  induction h2 with
  | start => simpa using h1
  | step _ hs ih =>
    rw [← List.append_assoc]
    exact .step ih hs

/-- A property of histories and streams that every move preserves holds along every course. -/
theorem Course.induct {s t : DecodeStream} {history : DecodeHistory}
    {P : DecodeHistory → DecodeStream → Prop} (h : s.Course history t) (start : P [] s)
    (step : ∀ {history : DecodeHistory} {t u : DecodeStream} {move : DecodeMove}
      {received : Option Received}, s.Course history t → P history t →
      t.Transition move received u → P (history ++ [⟨t, move, received, u⟩]) u) : P history t := by
  induction h with
  | start => exact start
  | step hc hs ih => exact step hc ih (transition_of_step hs)

/-! ## What never changes -/

theorem Transition.chunk_eq {s t : DecodeStream} {move : DecodeMove} {received : Option Received}
    (h : s.Transition move received t) : t.chunk = s.chunk := by
  cases h with
  | work hw hn => rename_i effect; cases effect <;> rfl
  | _ => rfl

theorem Transition.shards_eq {s t : DecodeStream} {move : DecodeMove} {received : Option Received}
    (h : s.Transition move received t) :
    t.workers.map Worker.shard = s.workers.map Worker.shard := by
  cases h with
  | @work i worker phase effect hw hn =>
    have hset : (s.workers.set i { worker with phase }).map Worker.shard
        = s.workers.map Worker.shard := by
      rw [List.map_set]
      refine List.ext_getElem? fun j => ?_
      by_cases hj : i = j
      · subst hj
        obtain ⟨hlt, rfl⟩ := List.getElem?_eq_some_iff.mp hw
        simp [hlt]
      · simp [hj]
    cases effect <;> exact hset
  | _ => rfl

theorem Course.chunk_eq {s t : DecodeStream} {history : DecodeHistory} (h : s.Course history t) :
    t.chunk = s.chunk :=
  h.induct (P := fun _ t => t.chunk = s.chunk) rfl fun _ ih hs => hs.chunk_eq.trans ih

theorem Course.shards_eq {s t : DecodeStream} {history : DecodeHistory} (h : s.Course history t) :
    t.workers.map Worker.shard = s.workers.map Worker.shard :=
  h.induct (P := fun _ t => t.workers.map Worker.shard = s.workers.map Worker.shard) rfl
    fun _ ih hs => hs.shards_eq.trans ih

theorem Course.length_workers {s t : DecodeStream} {history : DecodeHistory}
    (h : s.Course history t) : t.workers.length = s.workers.length := by
  have := congrArg List.length h.shards_eq
  simpa using this

end DecodeStream

end AppearanceIndex
