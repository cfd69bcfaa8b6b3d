import AppearanceIndex.Proofs.Decode.Count

/-!
# Accounting for failures and cancellations

`DecodeStream.Accounted` says where the failures of a course are: a worker that failed is about to
report, or its failure waits in the queue, or the consumer has received the end; and a token that is
cancelled was cancelled by a failed worker or from outside.
-/

namespace AppearanceIndex

namespace OpenChunk

theorem activities_of_readRecords {chunk : OpenChunk} {shard : Shard} {f : Failure}
    (h : chunk.readRecords shard = .error f) : f.activities ≠ [] := by
  unfold readRecords at h
  split at h
  · cases h
  · cases h
    exact List.cons_ne_nil _ _

theorem activities_of_readSpan {chunk : OpenChunk} {shard : Shard} {record : AddressRecord}
    {f : Failure} (h : chunk.readSpan shard record = .error f) : f.activities ≠ [] := by
  unfold readSpan at h
  split at h
  · split at h
    · cases h
    · cases h
      exact List.cons_ne_nil _ _
  · cases h
    exact List.cons_ne_nil _ _

end OpenChunk

namespace WorkerEffect

def reports : WorkerEffect → List Failure
  | report f => [f]
  | _ => []

end WorkerEffect

namespace WorkerPhase

/-- The worker has not failed, or all is done about its failure. -/
def isSound : WorkerPhase → Bool
  | failing _ | cancelling => false
  | _ => true

/-- What a step has to do with failing: a worker fails, then reports, then cancels the token. -/
inductive FailureStep (phase after : WorkerPhase) (effect : WorkerEffect) : Prop where
  | fails {f : Failure} (hp : phase.isSound = true) (ha : after = .failing f)
      (he : effect = .silent) (hf : f.activities ≠ [])
  | reports {f : Failure} (hp : phase = .failing f) (ha : after = .cancelling)
      (he : effect = .report f)
  | cancels (hp : phase = .cancelling) (ha : after = .ended) (he : effect = .cancel)
  | works (hp : phase.isSound = true) (ha : after.isSound = true) (hr : effect.reports = [])
      (hc : effect.cancels = false)

theorem failureStep_of_next {chunk : OpenChunk} {shard : Shard} {cancelled : Bool}
    {room : OutputRoom} {phase after : WorkerPhase} {effect : WorkerEffect}
    (h : phase.next chunk shard cancelled room = some (after, effect)) :
    FailureStep phase after effect := by
  cases phase with
  | waiting => cases cancelled <;> cases h <;> exact .works rfl rfl rfl rfl
  | loading =>
    simp only [next] at h
    split at h
    · cases h
      exact .works rfl rfl rfl rfl
    · next hr =>
      cases h
      exact .fails rfl rfl rfl (OpenChunk.activities_of_readRecords hr)
  | between records =>
    cases records with
    | nil =>
      cases h
      exact .works rfl rfl rfl rfl
    | cons => cases cancelled <;> cases h <;> exact .works rfl rfl rfl rfl
  | fetching record records =>
    simp only [next] at h
    split at h
    · cases h
      exact .works rfl rfl rfl rfl
    · next hr =>
      cases h
      exact .fails rfl rfl rfl (OpenChunk.activities_of_readSpan hr)
  | sending address apps records =>
    cases apps with
    | nil =>
      cases h
      exact .works rfl rfl rfl rfl
    | cons => cases room <;> cases h <;> exact .works rfl rfl rfl rfl
  | failing f =>
    cases h
    exact .reports rfl rfl rfl
  | cancelling =>
    cases h
    exact .cancels rfl rfl rfl
  | ended => cases h

end WorkerPhase

namespace DecodeStream

@[simp] theorem errors_withEffect (s : DecodeStream) (i : Nat) (effect : WorkerEffect) :
    (s.withEffect i effect).errors = s.errors ++ effect.reports := by
  cases effect <;> simp [withEffect, WorkerEffect.reports]

@[simp] theorem closed_withEffect (s : DecodeStream) (i : Nat) (effect : WorkerEffect) :
    (s.withEffect i effect).closed = s.closed := by cases effect <;> rfl

@[simp] theorem finished_withEffect (s : DecodeStream) (i : Nat) (effect : WorkerEffect) :
    (s.withEffect i effect).finished = s.finished := by cases effect <;> rfl

theorem phase_of_allEnded {s : DecodeStream} (h : s.allEnded = true) {worker : Worker}
    (hw : worker ∈ s.workers) : worker.phase = .ended := by
  have hi := List.all_eq_true.mp h worker hw
  cases hp : worker.phase <;> simp [hp, WorkerPhase.isActive] at hi
  rfl

/-- Where the failures of a course and the reasons for a cancelled token are to be found. -/
structure Accounted (history : DecodeHistory) (s : DecodeStream) : Prop where
  failing : ∀ (i : Nat) (worker : Worker) (f : Failure), s.workers[i]? = some worker →
    worker.phase = .failing f → (i, f) ∈ history.failures
  cancelling : ∀ worker ∈ s.workers, worker.phase = .cancelling → history.failures ≠ []
  errors : ∀ f ∈ s.errors, ∃ i, (i, f) ∈ history.reports
  reports : ∀ report ∈ history.reports, report ∈ history.failures
  known : ∀ failure ∈ history.failures, failure.2.activities ≠ []
  pending : history.failures ≠ [] → s.finished = false →
    s.errors ≠ [] ∨ ∃ (i : Nat) (worker : Worker) (f : Failure),
      s.workers[i]? = some worker ∧ worker.phase = .failing f
  cancelled : s.isReceiving = true → s.finished = false → s.cancelled = true →
    history.failures ≠ [] ∨ history.cancelledEarly = true
  early : history.cancelledEarly = true → s.cancelled = true
  closed : s.closed = true → s.allEnded = true

theorem accounted_ofChunk (chunk : OpenChunk) (maxWorkers capacity : Positive) :
    (ofChunk chunk maxWorkers capacity).Accounted [] := by
  have hwaiting : ∀ worker ∈ (ofChunk chunk maxWorkers capacity).workers,
      worker.phase = .waiting := by
    intro worker hw
    obtain ⟨shard, -, rfl⟩ := List.mem_map.mp hw
    rfl
  constructor
  · intro i worker f hw hp
    rw [hwaiting worker (List.mem_of_getElem? hw)] at hp
    cases hp
  · intro worker hw hp
    rw [hwaiting worker hw] at hp
    cases hp
  · intro f hf
    cases hf
  · intro report hr
    cases hr
  · intro failure hf
    cases hf
  · intro hf
    exact absurd rfl hf
  · intro _ _ hx
    cases hx
  · intro hx
    cases hx
  · intro hc
    cases hc

/-- A closed output means that no worker can move any more. -/
theorem Accounted.not_closed_of_work {s : DecodeStream} {history : DecodeHistory}
    (h : s.Accounted history) {i : Nat} {worker : Worker} {outcome : WorkerPhase × WorkerEffect}
    (hw : s.workers[i]? = some worker)
    (hn : worker.phase.next s.chunk worker.shard s.cancelled s.room = some outcome) :
    s.closed = false := by
  cases hc : s.closed with
  | false => rfl
  | true =>
    rw [phase_of_allEnded (h.closed hc) (List.mem_of_getElem? hw)] at hn
    cases hn

/-! ### The step of a worker -/

/-- What the step of one worker leaves behind. -/
structure Worked (s u : DecodeStream) (i : Nat) (worker : Worker) (phase : WorkerPhase)
    (effect : WorkerEffect) : Prop where
  before : s.workers[i]? = some worker
  after : u.workers[i]? = some { worker with phase }
  others : ∀ {j : Nat}, i ≠ j → u.workers[j]? = s.workers[j]?
  members : ∀ other ∈ u.workers, other ∈ s.workers ∨ other = { worker with phase }
  errors : u.errors = s.errors ++ effect.reports
  cancelled : u.cancelled = (s.cancelled || effect.cancels)
  finished : u.finished = s.finished
  receiving : u.isReceiving = s.isReceiving
  closed : u.closed = s.closed
  failure : WorkerPhase.FailureStep worker.phase phase effect

variable {s u : DecodeStream} {history : DecodeHistory} {i : Nat} {worker : Worker}
  {phase : WorkerPhase} {effect : WorkerEffect}

theorem worked_of_next (hw : s.workers[i]? = some worker)
    (hn : worker.phase.next s.chunk worker.shard s.cancelled s.room = some (phase, effect)) :
    s.Worked (({ s with workers := s.workers.set i { worker with phase } } :
      DecodeStream).withEffect i effect) i worker phase effect := by
  obtain ⟨hlt, -⟩ := List.getElem?_eq_some_iff.mp hw
  refine ⟨hw, ?_, ?_, ?_, errors_withEffect .., cancelled_withEffect .., finished_withEffect ..,
    isReceiving_withEffect .., closed_withEffect .., WorkerPhase.failureStep_of_next hn⟩
  · rw [workers_withEffect, List.getElem?_set_self hlt]
  · intro j hij
    rw [workers_withEffect, List.getElem?_set_ne hij]
  · intro other ho
    rw [workers_withEffect] at ho
    exact List.mem_or_eq_of_mem_set ho

theorem mem_failed_work (hw : s.Worked u i worker phase effect) {failure : Nat × Failure} :
    failure ∈ DecodeEvent.failed ⟨s, .work i, none, u⟩ ↔
      failure.1 = i ∧ phase = .failing failure.2 := by
  obtain ⟨j, f⟩ := failure
  simp only [DecodeEvent.failed, hw.after, Option.map_some]
  cases phase <;> simp [eq_comm]

theorem mem_reported_work (hw : s.Worked u i worker phase effect) {failure : Nat × Failure} :
    failure ∈ DecodeEvent.reported ⟨s, .work i, none, u⟩ ↔
      failure.1 = i ∧ worker.phase = .failing failure.2 := by
  obtain ⟨j, f⟩ := failure
  simp only [DecodeEvent.reported, hw.before, Option.map_some]
  cases worker.phase <;> simp [eq_comm]

/-- A worker that has not yet reported is in the account. -/
theorem Accounted.failed_of_failing (h : s.Accounted history)
    (hw : s.Worked u i worker phase effect) {f : Failure} (hp : worker.phase = .failing f) :
    (i, f) ∈ history.failures :=
  h.failing i worker f hw.before hp

theorem Accounted.failing_work (h : s.Accounted history)
    (hw : s.Worked u i worker phase effect) {j : Nat} {other : Worker} {f : Failure}
    (ho : u.workers[j]? = some other) (hp : other.phase = .failing f) :
    (j, f) ∈ DecodeHistory.failures (history ++ [⟨s, .work i, none, u⟩]) := by
  rw [DecodeHistory.failures_append, DecodeHistory.failures_single, List.mem_append]
  by_cases hij : i = j
  · subst hij
    rw [hw.after, Option.some.injEq] at ho
    subst ho
    exact .inr ((mem_failed_work hw).mpr ⟨rfl, hp⟩)
  · rw [hw.others hij] at ho
    exact .inl (h.failing j other f ho hp)

theorem Accounted.cancelling_work (h : s.Accounted history)
    (hw : s.Worked u i worker phase effect) {other : Worker} (ho : other ∈ u.workers)
    (hp : other.phase = .cancelling) : history.failures ≠ [] := by
  rcases hw.members other ho with ho | rfl
  · exact h.cancelling other ho hp
  · have hphase : phase = .cancelling := hp
    cases hw.failure with
    | reports hfailing => exact List.ne_nil_of_mem (h.failed_of_failing hw hfailing)
    | fails _ ha => rw [hphase] at ha; cases ha
    | cancels _ ha => rw [hphase] at ha; cases ha
    | works _ ha => rw [hphase] at ha; cases ha

theorem Accounted.errors_work (h : s.Accounted history)
    (hw : s.Worked u i worker phase effect) {f : Failure} (hf : f ∈ u.errors) :
    ∃ j, (j, f) ∈ DecodeHistory.reports (history ++ [⟨s, .work i, none, u⟩]) := by
  rw [hw.errors, List.mem_append] at hf
  rw [DecodeHistory.reports_append, DecodeHistory.reports_single]
  rcases hf with hf | hf
  · obtain ⟨j, hj⟩ := h.errors f hf
    exact ⟨j, List.mem_append_left _ hj⟩
  · cases hw.failure with
    | reports hp _ he =>
      rw [he] at hf
      obtain rfl := List.mem_singleton.mp hf
      exact ⟨i, List.mem_append_right _ ((mem_reported_work hw).mpr ⟨rfl, hp⟩)⟩
    | fails _ _ he => rw [he] at hf; cases hf
    | cancels _ _ he => rw [he] at hf; cases hf
    | works _ _ hr => rw [hr] at hf; cases hf

theorem Accounted.reports_work (h : s.Accounted history)
    (hw : s.Worked u i worker phase effect) {report : Nat × Failure}
    (hr : report ∈ DecodeHistory.reports (history ++ [⟨s, .work i, none, u⟩])) :
    report ∈ history.failures := by
  rw [DecodeHistory.reports_append, DecodeHistory.reports_single, List.mem_append] at hr
  rcases hr with hr | hr
  · exact h.reports report hr
  · obtain ⟨j, f⟩ := report
    obtain ⟨rfl, hp⟩ := (mem_reported_work hw).mp hr
    exact h.failed_of_failing hw hp

theorem Accounted.known_work (h : s.Accounted history)
    (hw : s.Worked u i worker phase effect) {failure : Nat × Failure}
    (hf : failure ∈ DecodeHistory.failures (history ++ [⟨s, .work i, none, u⟩])) :
    failure.2.activities ≠ [] := by
  rw [DecodeHistory.failures_append, DecodeHistory.failures_single, List.mem_append] at hf
  rcases hf with hf | hf
  · exact h.known failure hf
  · obtain ⟨-, hphase⟩ := (mem_failed_work hw).mp hf
    cases hw.failure with
    | fails _ ha _ hactivities =>
      rw [hphase, WorkerPhase.failing.injEq] at ha
      exact ha ▸ hactivities
    | reports _ ha => rw [hphase] at ha; cases ha
    | cancels _ ha => rw [hphase] at ha; cases ha
    | works _ ha => rw [hphase] at ha; cases ha

/-- The step of a worker that has nothing to report leaves to others what is pending. -/
theorem Worked.pending (hw : s.Worked u i worker phase effect)
    (hn : ∀ f, worker.phase ≠ .failing f)
    (hp : s.errors ≠ [] ∨ ∃ (j : Nat) (other : Worker) (f : Failure),
      s.workers[j]? = some other ∧ other.phase = .failing f) :
    u.errors ≠ [] ∨ ∃ (j : Nat) (other : Worker) (f : Failure),
      u.workers[j]? = some other ∧ other.phase = .failing f := by
  rcases hp with he | ⟨j, other, f, ho, hp⟩
  · rw [hw.errors]
    exact .inl (List.append_ne_nil_of_left_ne_nil he _)
  · have hij : i ≠ j := by
      rintro rfl
      rw [hw.before, Option.some.injEq] at ho
      exact hn f (ho ▸ hp)
    exact .inr ⟨j, other, f, (hw.others hij).trans ho, hp⟩

theorem Accounted.pending_work (h : s.Accounted history)
    (hw : s.Worked u i worker phase effect)
    (hne : DecodeHistory.failures (history ++ [⟨s, .work i, none, u⟩]) ≠ [])
    (hf : u.finished = false) :
    u.errors ≠ [] ∨ ∃ (j : Nat) (other : Worker) (f : Failure),
      u.workers[j]? = some other ∧ other.phase = .failing f := by
  rw [hw.finished] at hf
  cases hw.failure with
  | fails _ ha => exact .inr ⟨i, _, _, hw.after, ha⟩
  | reports _ _ he =>
    rw [hw.errors, he]
    exact .inl (List.append_ne_nil_of_right_ne_nil _ (List.cons_ne_nil _ _))
  | cancels hp =>
    refine hw.pending (fun f hfailing => ?_) (h.pending ?_ hf)
    · rw [hp] at hfailing
      cases hfailing
    · exact h.cancelling worker (List.mem_of_getElem? hw.before) hp
  | works hp ha =>
    refine hw.pending (fun f hfailing => ?_) (h.pending ?_ hf)
    · rw [hfailing] at hp
      cases hp
    · -- a worker that did not fail adds nothing to the failures
      have hnil : DecodeEvent.failed ⟨s, .work i, none, u⟩ = [] := by
        refine List.eq_nil_iff_forall_not_mem.mpr fun failure hmem => ?_
        rw [((mem_failed_work hw).mp hmem).2] at ha
        cases ha
      rwa [DecodeHistory.failures_append, DecodeHistory.failures_single, hnil,
        List.append_nil] at hne

theorem Accounted.cancelled_work (h : s.Accounted history)
    (hw : s.Worked u i worker phase effect) (hr : u.isReceiving = true) (hf : u.finished = false)
    (hx : u.cancelled = true) : history.failures ≠ [] ∨ history.cancelledEarly = true := by
  rw [hw.receiving] at hr
  rw [hw.finished] at hf
  rw [hw.cancelled, Bool.or_eq_true] at hx
  rcases hx with hx | hx
  · exact h.cancelled hr hf hx
  · cases hw.failure with
    | cancels hp => exact .inl (h.cancelling worker (List.mem_of_getElem? hw.before) hp)
    | fails _ _ he => rw [he] at hx; cases hx
    | reports _ _ he => rw [he] at hx; cases hx
    | works _ _ _ hc => rw [hc] at hx; cases hx

theorem Accounted.work (h : s.Accounted history) (hw : s.Worked u i worker phase effect)
    (hopen : s.closed = false) : u.Accounted (history ++ [⟨s, .work i, none, u⟩]) := by
  have hfailures : history.failures ≠ [] →
      DecodeHistory.failures (history ++ [⟨s, .work i, none, u⟩]) ≠ [] := by
    intro hne
    rw [DecodeHistory.failures_append]
    exact List.append_ne_nil_of_left_ne_nil hne _
  have hearly : DecodeHistory.cancelledEarly (history ++ [⟨s, .work i, none, u⟩]) =
      history.cancelledEarly := by
    rw [DecodeHistory.cancelledEarly_append, DecodeHistory.cancelledEarly_single]
    exact Bool.or_false _
  constructor
  · exact fun j other f => h.failing_work hw
  · exact fun other ho hp => hfailures (h.cancelling_work hw ho hp)
  · exact fun f => h.errors_work hw
  · intro report hr
    rw [DecodeHistory.failures_append]
    exact List.mem_append_left _ (h.reports_work hw hr)
  · exact fun failure => h.known_work hw
  · exact h.pending_work hw
  · intro hr hf hx
    rw [hearly]
    exact (h.cancelled_work hw hr hf hx).imp_left hfailures
  · intro hx
    rw [hearly] at hx
    rw [hw.cancelled, h.early hx, Bool.true_or]
  · intro hc
    rw [hw.closed, hopen] at hc
    cases hc

/-! ### The other moves -/

/-- A move that is not a worker's keeps the account if it takes errors away only together with
the end, and cancels the token only together with the end or as seen from outside. -/
theorem Accounted.keep {s u : DecodeStream} {history : DecodeHistory} {e : DecodeEvent}
    (h : s.Accounted history) (hfailed : e.failed = []) (hreported : e.reported = [])
    (hworkers : u.workers = s.workers) (herrors : ∀ f ∈ u.errors, f ∈ s.errors)
    (hpending : u.finished = false → u.errors = s.errors ∧ s.finished = false)
    (hcancelled : u.isReceiving = true → u.finished = false → u.cancelled = true →
      s.isReceiving = true ∧ (s.cancelled = true ∨ e.cancels = true))
    (hearly : s.cancelled = true ∨ e.cancels = true → u.cancelled = true)
    (hclosed : u.closed = true → s.allEnded = true) : u.Accounted (history ++ [e]) := by
  have hf : DecodeHistory.failures (history ++ [e]) = history.failures := by simp [hfailed]
  have hr : DecodeHistory.reports (history ++ [e]) = history.reports := by simp [hreported]
  have hx : DecodeHistory.cancelledEarly (history ++ [e]) = (history.cancelledEarly || e.cancels) :=
    by simp
  constructor
  · rw [hf, hworkers]
    exact h.failing
  · rw [hf, hworkers]
    exact h.cancelling
  · rw [hr]
    intro f hmem
    exact h.errors f (herrors f hmem)
  · rw [hf, hr]
    exact h.reports
  · rw [hf]
    exact h.known
  · rw [hf, hworkers]
    intro hne hfin
    rw [(hpending hfin).1]
    exact h.pending hne (hpending hfin).2
  · rw [hf, hx, Bool.or_eq_true]
    intro hrec hfin hcan
    obtain ⟨hrec', hcan | hcan⟩ := hcancelled hrec hfin hcan
    · exact (h.cancelled hrec' (hpending hfin).2 hcan).imp_right .inl
    · exact .inr (.inr hcan)
  · rw [hx, Bool.or_eq_true]
    intro hcan
    exact hearly (hcan.imp_left h.early)
  · intro hc
    rw [allEnded, hworkers]
    exact hclosed hc

theorem Accounted.step {s u : DecodeStream} {history : DecodeHistory} {move : DecodeMove}
    {received : Option Received} (h : s.Accounted history) (ht : s.Transition move received u) :
    u.Accounted (history ++ [⟨s, move, received, u⟩]) := by
  cases ht with
  | work hw hn => exact h.work (worked_of_next hw hn) (h.not_closed_of_work hw hn)
  | close he hc =>
    exact h.keep rfl rfl rfl (fun _ => id) (fun hf => ⟨rfl, hf⟩)
      (fun hr _ hx => ⟨hr, .inl hx⟩) (by simp [DecodeEvent.cancels]) (fun _ => he)
  | pollEnd hr hf =>
    exact h.keep rfl rfl rfl (fun _ => id) (fun hf => ⟨rfl, hf⟩)
      (fun hr _ hx => ⟨hr, .inl hx⟩) (by simp [DecodeEvent.cancels]) h.closed
  | pollError hr hf he =>
    exact h.keep rfl rfl rfl (fun f hm => he ▸ List.mem_cons_of_mem _ hm) (by simp) (by simp)
      (fun _ => rfl) h.closed
  | pollNothing hr hf he =>
    exact h.keep rfl rfl rfl (fun _ => id) (fun hf => ⟨rfl, hf⟩)
      (fun hr _ hx => ⟨hr, .inl hx⟩) (by simp [DecodeEvent.cancels]) h.closed
  | takeItem hr hf ho =>
    exact h.keep rfl rfl rfl (fun _ => id) (fun hf => ⟨rfl, hf⟩)
      (fun hr _ hx => ⟨hr, .inl hx⟩) (by simp [DecodeEvent.cancels]) h.closed
  | takeNothing hr hf ho hc =>
    exact h.keep rfl rfl rfl (fun _ => id) (fun hf => ⟨rfl, hf⟩)
      (fun hr _ hx => ⟨hr, .inl hx⟩) (by simp [DecodeEvent.cancels]) h.closed
  | takeError hr hf ho hc he =>
    exact h.keep rfl rfl rfl (fun f hm => he ▸ List.mem_cons_of_mem _ hm) (by simp) (by simp)
      (fun _ => rfl) h.closed
  | takeCancelled hr hf ho hc he hx =>
    exact h.keep rfl rfl rfl (fun _ => id) (by simp) (by simp) (by simp [DecodeEvent.cancels])
      h.closed
  | takeEnd hr hf ho hc he hx =>
    exact h.keep rfl rfl rfl (fun _ => id) (by simp) (by simp) (by simp [DecodeEvent.cancels])
      h.closed
  | cancel =>
    refine h.keep rfl rfl rfl (fun _ => id) (fun hf => ⟨rfl, hf⟩) ?_ (fun _ => rfl) h.closed
    intro hr hf _
    have hf : s.finished = false := hf
    exact ⟨hr, .inr (by simp [DecodeEvent.cancels, hf])⟩
  | drain hr =>
    exact h.keep rfl rfl rfl (fun _ => id) (fun hf => ⟨rfl, hf⟩) (by simp [isReceiving])
      (fun _ => rfl) h.closed
  | discard hd ho =>
    exact h.keep rfl rfl rfl (fun _ => id) (fun hf => ⟨rfl, hf⟩) (by simp [isReceiving, hd])
      (by simp [DecodeEvent.cancels]) h.closed
  | abandon =>
    exact h.keep rfl rfl rfl (fun _ => id) (fun hf => ⟨rfl, hf⟩) (by simp [isReceiving])
      (fun _ => rfl) h.closed

theorem Course.accounted {chunk : OpenChunk} {maxWorkers capacity : Positive}
    {history : DecodeHistory} {t : DecodeStream}
    (h : (ofChunk chunk maxWorkers capacity).Course history t) : t.Accounted history :=
  h.induct (P := fun history t => t.Accounted history)
    (accounted_ofChunk chunk maxWorkers capacity) fun _ ih hs => ih.step hs

end DecodeStream

end AppearanceIndex
