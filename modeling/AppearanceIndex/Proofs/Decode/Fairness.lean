import AppearanceIndex.Decode.Receive
import AppearanceIndex.Proofs.Decode.Course

/-!
# Fair schedules

A schedule names the participant whose turn it is at every instant; a turn that is not possible is
passed over (`DecodeStream.follow`). Under a schedule in which the consumer keeps receiving and
every participant gets its turn again and again (`KeepsReceiving`), the consumer receives the end:
no move adds to `DecodeStream.weight`, and a stream whose weight no longer falls has nobody left who
could move but the consumer.
-/

namespace AppearanceIndex

/-- The consumer goes on receiving, and every participant gets its turn again and again. -/
structure KeepsReceiving (workers : Nat) (schedule : Nat → DecodeMove) : Prop where
  stays : ∀ n, schedule n ≠ .abandon ∧ schedule n ≠ .drain
  polls : ∀ n, ∃ m, n ≤ m ∧ schedule m = .poll
  takes : ∀ n, ∃ m, n ≤ m ∧ schedule m = .take
  closes : ∀ n, ∃ m, n ≤ m ∧ schedule m = .close
  works : ∀ i, i < workers → ∀ n, ∃ m, n ≤ m ∧ schedule m = .work i

namespace DecodeStream

/-- A turn: the move if it is possible now, and nothing otherwise. -/
def attempt (s : DecodeStream) (move : DecodeMove) : DecodeHistory × DecodeStream :=
  match s.step move with
  | some (received, t) => ([⟨s, move, received, t⟩], t)
  | none => ([], s)

def follow (s : DecodeStream) (schedule : Nat → DecodeMove) : Nat → DecodeHistory × DecodeStream
  | 0 => ([], s)
  | n + 1 =>
    let (history, t) := s.follow schedule n
    let (more, u) := t.attempt (schedule n)
    (history ++ more, u)

def stateAt (s : DecodeStream) (schedule : Nat → DecodeMove) (n : Nat) : DecodeStream :=
  (s.follow schedule n).2

theorem Course.attempt {s t : DecodeStream} {history : DecodeHistory} (h : s.Course history t)
    (move : DecodeMove) : s.Course (history ++ (t.attempt move).1) (t.attempt move).2 := by
  unfold DecodeStream.attempt
  cases hs : t.step move with
  | none => simpa using h
  | some outcome => exact .step h hs

theorem course_follow (s : DecodeStream) (schedule : Nat → DecodeMove) (n : Nat) :
    s.Course (s.follow schedule n).1 (s.follow schedule n).2 := by
  induction n with
  | zero => exact .start
  | succ n ih => exact ih.attempt (schedule n)

/-! ## The weight along a schedule -/

theorem work_of_next {s : DecodeStream} {i : Nat} {worker : Worker} {phase : WorkerPhase}
    {effect : WorkerEffect} (hw : s.workers[i]? = some worker)
    (hn : worker.phase.next s.chunk worker.shard s.cancelled s.room = some (phase, effect)) :
    s.work i = some (({ s with workers := s.workers.set i { worker with phase } } :
      DecodeStream).withEffect i effect) := by
  unfold DecodeStream.work
  rw [hw]
  simp only [hn]

theorem Transition.weight_le {s t : DecodeStream} {move : DecodeMove} {received : Option Received}
    (h : s.Transition move received t) : t.weight ≤ s.weight := by
  cases h with
  | work hw hn => exact Nat.le_of_lt (weight_work (work_of_next hw hn))
  | close he hc => simp [weight, hc]
  | takeItem hr hf ho => simp only [weight, ho, List.length_cons]; omega
  | discard hd ho => simp only [weight, ho, List.length_cons]; omega
  | abandon => simp only [weight, List.length_nil]; omega
  | _ => exact Nat.le_refl _

/-- A move that lowers no weight and receives no end leaves workers and output as they are. -/
theorem Transition.idle {s t : DecodeStream} {move : DecodeMove} {received : Option Received}
    (h : s.Transition move received t) (hw : t.weight = s.weight) (ha : move ≠ .abandon)
    (hd : move ≠ .drain) :
    t.workers = s.workers ∧ t.output = s.output ∧ t.closed = s.closed ∧
      t.isReceiving = s.isReceiving := by
  cases h with
  | @work i worker phase effect hwk hn =>
    have hlt := weight_work (work_of_next hwk hn)
    omega
  | close he hc => simp [weight, hc] at hw
  | takeItem hr hf ho =>
    simp only [weight, ho, List.length_cons] at hw
    omega
  | discard hdr ho =>
    simp only [weight, ho, List.length_cons] at hw
    omega
  | drain => exact absurd rfl hd
  | abandon => exact absurd rfl ha
  | _ => exact ⟨rfl, rfl, rfl, rfl⟩

/-- Only taking makes a consumer forget that it has looked at the errors. -/
theorem Transition.checked_of_ne_take {s t : DecodeStream} {move : DecodeMove}
    {received : Option Received} (h : s.Transition move received t) (hm : move ≠ .take)
    (hc : s.checked = true) : t.checked = true := by
  cases h with
  | @work i worker phase effect hw hn => cases effect <;> exact hc
  | takeItem | takeNothing | takeError | takeCancelled | takeEnd => exact absurd rfl hm
  | pollNothing => rfl
  | _ => exact hc

theorem WorkerPhase.isSome_next {phase : WorkerPhase} (h : phase.isActive = true)
    (chunk : OpenChunk) (shard : Shard) (cancelled : Bool) :
    (phase.next chunk shard cancelled .free).isSome = true := by
  cases phase with
  | waiting | failing | cancelling => rfl
  | loading =>
    simp only [WorkerPhase.next]
    split <;> rfl
  | between records => cases records <;> rfl
  | fetching record records =>
    simp only [WorkerPhase.next]
    split <;> rfl
  | sending address apps records => cases apps <;> rfl
  | ended => cases h

/-- While there is room in the output, every worker that has not ended can move. -/
theorem isSome_work {s : DecodeStream} {i : Nat} {worker : Worker}
    (hw : s.workers[i]? = some worker) (ha : worker.phase.isActive = true) (hr : s.room = .free) :
    (s.work i).isSome = true := by
  obtain ⟨outcome, hn⟩ := Option.isSome_iff_exists.mp
    (WorkerPhase.isSome_next ha s.chunk worker.shard s.cancelled)
  unfold DecodeStream.work
  rw [hw]
  simp only [hr, hn]
  rfl

theorem room_of_nil {s : DecodeStream} (hr : s.isReceiving = true) (ho : s.output = []) :
    s.room = .free := by
  have ha : s.abandoned = false := by
    simp only [isReceiving, Bool.and_eq_true, Bool.not_eq_true'] at hr
    exact hr.1
  unfold room
  rw [ha, ho]
  exact if_pos s.capacity.property

section Follow

variable {s : DecodeStream} {schedule : Nat → DecodeMove}

theorem stateAt_succ (n : Nat) :
    s.stateAt schedule (n + 1) = ((s.stateAt schedule n).attempt (schedule n)).2 := rfl

theorem stateAt_succ_of_step {n : Nat} {outcome : Option Received × DecodeStream}
    (h : (s.stateAt schedule n).step (schedule n) = some outcome) :
    s.stateAt schedule (n + 1) = outcome.2 := by
  rw [stateAt_succ, DecodeStream.attempt, h]

theorem transition_stateAt (s : DecodeStream) (schedule : Nat → DecodeMove) (n : Nat) :
    s.stateAt schedule (n + 1) = s.stateAt schedule n ∨
      ∃ received, (s.stateAt schedule n).Transition (schedule n) received
        (s.stateAt schedule (n + 1)) := by
  cases hs : (s.stateAt schedule n).step (schedule n) with
  | none =>
    left
    rw [stateAt_succ, DecodeStream.attempt, hs]
  | some outcome =>
    right
    rw [stateAt_succ_of_step hs]
    exact ⟨outcome.1, transition_of_step hs⟩

theorem weight_stateAt_le {n m : Nat} (h : n ≤ m) :
    (s.stateAt schedule m).weight ≤ (s.stateAt schedule n).weight := by
  induction h with
  | refl => exact Nat.le_refl _
  | @step m _ ih =>
    rcases transition_stateAt s schedule m with heq | ⟨_, ht⟩
    · rw [heq]
      exact ih
    · exact Nat.le_trans ht.weight_le ih

/-- From `n` on, the weight does not fall and the end is not received. -/
def Stalled (s : DecodeStream) (schedule : Nat → DecodeMove) (n : Nat) : Prop :=
  ∀ m, n ≤ m → (s.stateAt schedule m).finished = false ∧
    (s.stateAt schedule m).weight = (s.stateAt schedule n).weight

theorem Stalled.weight_succ {n m : Nat} (h : s.Stalled schedule n) (hm : n ≤ m) :
    (s.stateAt schedule (m + 1)).weight = (s.stateAt schedule m).weight := by
  rw [(h (m + 1) (Nat.le_succ_of_le hm)).2, (h m hm).2]

/-- A stalled stream keeps its workers and its output. -/
theorem Stalled.same {n m : Nat} (h : s.Stalled schedule n)
    (hs : ∀ n, schedule n ≠ .abandon ∧ schedule n ≠ .drain) (hm : n ≤ m) :
    let t := s.stateAt schedule n
    let u := s.stateAt schedule m
    u.workers = t.workers ∧ u.output = t.output ∧ u.closed = t.closed ∧
      u.isReceiving = t.isReceiving := by
  induction hm with
  | refl => exact ⟨rfl, rfl, rfl, rfl⟩
  | @step m hm ih =>
    rcases transition_stateAt s schedule m with heq | ⟨_, ht⟩
    · rw [Nat.succ_eq_add_one, heq]
      exact ih
    · obtain ⟨h1, h2, h3, h4⟩ := ht.idle (h.weight_succ hm) (hs m).1 (hs m).2
      obtain ⟨i1, i2, i3, i4⟩ := ih
      exact ⟨h1.trans i1, h2.trans i2, h3.trans i3, h4.trans i4⟩

/-- In a stalled stream, a consumer that looks at the errors finds none. -/
theorem Stalled.checked_of_poll {n m : Nat} (h : s.Stalled schedule n) (hm : n ≤ m)
    (hr : (s.stateAt schedule m).isReceiving = true) (hturn : schedule m = .poll) :
    (s.stateAt schedule (m + 1)).checked = true := by
  have hfin := (h m hm).1
  have hfin' := (h (m + 1) (Nat.le_succ_of_le hm)).1
  have hstep : (s.stateAt schedule m).step (schedule m) = some (s.stateAt schedule m).poll := by
    rw [hturn]
    simp [step, hr]
  have ht := transition_of_poll hr
  rw [← stateAt_succ_of_step hstep] at ht
  generalize (s.stateAt schedule m).poll.1 = received at ht
  generalize s.stateAt schedule (m + 1) = u at ht hfin'
  cases ht with
  | pollEnd _ hf =>
    rw [hfin] at hf
    cases hf
  | pollError => cases hfin'
  | pollNothing => rfl

/-- In a stalled stream, a consumer that takes from the output finds it empty and open. -/
theorem Stalled.empty_of_take {n m : Nat} (h : s.Stalled schedule n) (hm : n ≤ m)
    (hr : (s.stateAt schedule m).isReceiving = true)
    (hc : (s.stateAt schedule m).checked = true) (hturn : schedule m = .take) :
    (s.stateAt schedule m).output = [] ∧ (s.stateAt schedule m).closed = false := by
  have hfin := (h m hm).1
  have hfin' := (h (m + 1) (Nat.le_succ_of_le hm)).1
  have hw := h.weight_succ hm
  have hstep : (s.stateAt schedule m).step (schedule m) = some (s.stateAt schedule m).take := by
    rw [hturn]
    simp [step, hr, hc, hfin]
  have ht := transition_of_take hr hfin
  rw [← stateAt_succ_of_step hstep] at ht
  generalize (s.stateAt schedule m).take.1 = received at ht
  generalize s.stateAt schedule (m + 1) = u at ht hfin' hw
  cases ht with
  | takeItem _ _ ho =>
    simp only [weight, ho, List.length_cons] at hw
    omega
  | takeNothing _ _ ho hc => exact ⟨ho, hc⟩
  | takeError | takeCancelled | takeEnd => cases hfin'

/-- Whoever looked at the errors does not forget it before it takes from the output. -/
theorem checked_stateAt {p m : Nat} (hm : p ≤ m) (hp : (s.stateAt schedule p).checked = true)
    (hnot : ∀ k, p ≤ k → (s.stateAt schedule k).checked = true → schedule k ≠ .take) :
    (s.stateAt schedule m).checked = true := by
  induction hm with
  | refl => exact hp
  | @step m hm ih =>
    rcases transition_stateAt s schedule m with heq | ⟨_, ht⟩
    · rw [Nat.succ_eq_add_one, heq]
      exact ih
    · exact ht.checked_of_ne_take (hnot m hm ih) ih

/-- The output of a stalled stream is empty and open. -/
theorem Stalled.nothing_to_take {n : Nat} (h : s.Stalled schedule n)
    (hk : KeepsReceiving (s.stateAt schedule n).workers.length schedule)
    (hr : (s.stateAt schedule n).isReceiving = true) :
    (s.stateAt schedule n).output = [] ∧ (s.stateAt schedule n).closed = false := by
  have htake : ∀ m, n ≤ m → (s.stateAt schedule m).checked = true → schedule m = .take →
      (s.stateAt schedule n).output = [] ∧ (s.stateAt schedule n).closed = false := by
    intro m hm hc hturn
    obtain ⟨-, hout, hclosed, hrec⟩ := h.same hk.stays hm
    rw [← hout, ← hclosed]
    exact h.empty_of_take hm (hrec.trans hr) hc hturn
  refine Classical.byContradiction fun hne => ?_
  -- the consumer looks at the errors some time, and takes from the output some time after that
  obtain ⟨p, hp, hpoll⟩ := hk.polls n
  obtain ⟨q, hq, hturn⟩ := hk.takes (p + 1)
  have hrp : (s.stateAt schedule p).isReceiving = true := (h.same hk.stays hp).2.2.2.trans hr
  have hchecked : (s.stateAt schedule q).checked = true := by
    refine checked_stateAt hq (h.checked_of_poll hp hrp hpoll) fun k hpk hck htk => ?_
    exact hne (htake k (by omega) hck htk)
  exact hne (htake q (by omega) hchecked hturn)

/-- A stream whose consumer keeps receiving does not stall. -/
theorem not_stalled {n : Nat}
    (hk : KeepsReceiving (s.stateAt schedule n).workers.length schedule)
    (hr : (s.stateAt schedule n).isReceiving = true) : ¬ s.Stalled schedule n := by
  intro h
  obtain ⟨hout, hclosed⟩ := h.nothing_to_take hk hr
  -- some worker that has not ended gets its turn, or else the output is closed
  by_cases hall : (s.stateAt schedule n).allEnded = true
  · obtain ⟨m, hm, hturn⟩ := hk.closes n
    obtain ⟨hwk, -, hcl, -⟩ := h.same hk.stays hm
    have hall' : (s.stateAt schedule m).allEnded = true := by
      rw [allEnded, hwk]
      exact hall
    have hcl' : (s.stateAt schedule m).closed = false := hcl.trans hclosed
    have hstep : (s.stateAt schedule m).step (schedule m)
        = some (none, { s.stateAt schedule m with closed := true }) := by
      rw [hturn]
      simp [step, hall', hcl']
    have hsame := (h.same hk.stays (m := m + 1) (by omega)).2.2.1
    rw [stateAt_succ_of_step hstep, hclosed] at hsame
    cases hsame
  · obtain ⟨worker, hmem, hactive⟩ : ∃ worker ∈ (s.stateAt schedule n).workers,
        worker.phase.isActive = true := by
      simpa [allEnded] using hall
    obtain ⟨i, hi⟩ := List.getElem?_of_mem hmem
    obtain ⟨m, hm, hturn⟩ := hk.works i (List.getElem?_eq_some_iff.mp hi).1 n
    obtain ⟨hwk, hom, -, hrm⟩ := h.same hk.stays hm
    have hroom := room_of_nil (hrm.trans hr) (hom.trans hout)
    obtain ⟨t, ht⟩ := Option.isSome_iff_exists.mp (isSome_work (hwk.symm ▸ hi) hactive hroom)
    have hstep : (s.stateAt schedule m).step (schedule m) = some (none, t) := by
      rw [hturn]
      simp [step, ht]
    have hlt := weight_work ht
    have heq : t.weight = (s.stateAt schedule n).weight := by
      rw [← (h (m + 1) (by omega)).2, stateAt_succ_of_step hstep]
    rw [heq, (h m hm).2] at hlt
    exact Nat.lt_irrefl _ hlt

/-- A consumer that keeps receiving is not driven away. -/
theorem isReceiving_stateAt (hk : ∀ n, schedule n ≠ .abandon ∧ schedule n ≠ .drain)
    (hr : s.isReceiving = true) (n : Nat) : (s.stateAt schedule n).isReceiving = true := by
  induction n with
  | zero => exact hr
  | succ n ih =>
    rcases transition_stateAt s schedule n with heq | ⟨_, ht⟩
    · rw [heq]
      exact ih
    · have hstay := hk n
      generalize schedule n = move at ht hstay
      generalize s.stateAt schedule (n + 1) = u at ht
      cases ht with
      | @work i worker phase effect hw hn => cases effect <;> exact ih
      | drain => exact absurd rfl hstay.2
      | abandon => exact absurd rfl hstay.1
      | _ => exact ih

theorem length_workers_stateAt (n : Nat) :
    (s.stateAt schedule n).workers.length = s.workers.length :=
  (course_follow s schedule n).length_workers

/-- At every instant, the end has yet to be received or the weight to fall. -/
theorem falls_or_finishes (hk : KeepsReceiving s.workers.length schedule)
    (hr : s.isReceiving = true) (n : Nat) : ∃ m, (s.stateAt schedule m).finished = true ∨
      (s.stateAt schedule m).weight < (s.stateAt schedule n).weight := by
  have hstall := not_stalled (n := n) ((length_workers_stateAt n).symm ▸ hk)
    (isReceiving_stateAt hk.stays hr n)
  refine Classical.byContradiction fun hnone => hstall fun m hm => ?_
  have hm' := not_exists.mp hnone m
  rw [not_or] at hm'
  have hle : (s.stateAt schedule m).weight ≤ (s.stateAt schedule n).weight := weight_stateAt_le hm
  exact ⟨by simpa using hm'.1, by omega⟩

/-- A consumer that keeps receiving receives the end. -/
theorem eventually_finished (hk : KeepsReceiving s.workers.length schedule)
    (hr : s.isReceiving = true) : ∃ n, (s.stateAt schedule n).finished = true := by
  have hfinish : ∀ w n, (s.stateAt schedule n).weight = w →
      ∃ m, (s.stateAt schedule m).finished = true := by
    intro w
    induction w using Nat.strongRecOn with
    | ind w ih =>
      intro n hw
      obtain ⟨m, hfin | hlt⟩ := falls_or_finishes hk hr n
      · exact ⟨m, hfin⟩
      · exact ih _ (hw ▸ hlt) m rfl
  exact hfinish _ 0 rfl

end Follow

end DecodeStream

end AppearanceIndex
