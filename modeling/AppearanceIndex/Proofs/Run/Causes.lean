import AppearanceIndex.Proofs.Run.Lines

/-!
# What a run tells of a failure

A chunk that cannot be decoded and a batch that the sink refuses are first told to the status log,
and only then to whoever waits for the outcome. What is told carries the cause and names the chunk
(`Failure.Carries`), unless its line did not get into the log: then it is the failure of the line
(`Failure.Told`). The writer returns the failure that it takes, as long as the sink does not fail it
first.
-/

namespace AppearanceIndex

namespace Failure

variable {f g h : Failure}

/-- One failure is told with another one in it: the whole chain, and the same error of the index. -/
structure Carries (g f : Failure) : Prop where
  chain : f.chain <:+ g.chain
  indexError : g.indexError? = f.indexError?

theorem carries_within (f : Failure) (activity : Activity) : (f.within activity).Carries f where
  chain := List.suffix_cons _ _
  indexError := rfl

theorem Carries.trans (h1 : h.Carries g) (h2 : g.Carries f) : h.Carries f where
  chain := h2.chain.trans h1.chain
  indexError := h1.indexError.trans h2.indexError

theorem text_mem_chain_within (f : Failure) (activity : Activity) :
    activity.text ∈ (f.within activity).chain := List.mem_cons_self

/-- What is told of a failure that is to get a line in the log: it was that of the activity; or
there is a log, the line is not among those that got into it, and the failure is that of the
line. -/
def Told (log : Option StatusLog) (line : StatusLine) (written : List StatusLine) (f : Failure)
    (activity : Activity) (g : Failure) : Prop :=
  (g.Carries f ∧ activity.text ∈ g.chain) ∨
    (log.isSome = true ∧ line ∉ written ∧ ∃ k : Failure, g.Carries (k.within .recordStatus))

variable {log : Option StatusLog} {line : StatusLine} {written more : List StatusLine}
  {activity : Activity}

theorem told_within (log : Option StatusLog) (line : StatusLine) (written : List StatusLine)
    (f : Failure) (activity : Activity) :
    Told log line written f activity (f.within activity) :=
  .inl ⟨f.carries_within activity, f.text_mem_chain_within activity⟩

/-- Lines for something else change nothing. -/
theorem Told.append (ht : Told log line written f activity g) (hm : line ∉ more) :
    Told log line (written ++ more) f activity g := by
  refine ht.imp_right fun ⟨hlog, hline, hk⟩ => ⟨hlog, ?_, hk⟩
  rw [List.mem_append, not_or]
  exact ⟨hline, hm⟩

end Failure

namespace Ingest

variable {s u : Ingest}

/-- As long as the producer reads files, it puts no failure into the queue. -/
theorem Transition.reading {move : IngestMove} (h : s.Transition move none u)
    (hu : u.producer.isReading = true) :
    s.producer.isReading = true ∧ ∀ g, .failure g ∈ u.queue → .failure g ∈ s.queue := by
  cases h with
  | list hp =>
    obtain ⟨producer, hframe⟩ := s.listChunks_frame
    rw [hframe]
    exact ⟨by rw [hp]; rfl, fun _ hg => hg⟩
  | @receive work chunks _ outcome _ hp =>
    obtain ⟨producer, hframe⟩ := s.afterReceive_frame work chunks outcome
    rw [hframe]
    exact ⟨by rw [hp]; rfl, fun _ hg => hg⟩
  | next hp | decode _ hp | decodeOn _ hp => exact ⟨by rw [hp]; rfl, fun _ hg => hg⟩
  | @send delivery next hp =>
    refine ⟨Producer.isReading_of_pending hp hu, fun g hg => ?_⟩
    rcases List.mem_append.mp hg with hg | hg
    · exact hg
    · obtain rfl := List.mem_singleton.mp hg
      cases hs : s.producer with
      | failing f =>
        rw [hs] at hp
        cases hp
        cases hu
      | _ =>
        rw [hs] at hp
        cases hp
  | giveUp => cases hu
  | @record chunk f hp =>
    obtain ⟨g, hg⟩ := s.exists_failing chunk f
    rw [hg] at hu
    cases hu
  | abandon => exact ⟨hu, fun _ hg => nomatch hg⟩

/-- What the producer has to tell when it has dealt with the line of a chunk that failed. -/
theorem recordFailure_tells (s : Ingest) (chunk : ChunkEntry) (f : Failure) :
    ((s.recordFailure chunk f).producer = .failing (f.within (.decodeChunk chunk.path.text)) ∧
        ∀ log ∈ s.log, log.takes s.files ⟨.error, chunk.name⟩ = true) ∨
      ∃ g : Failure, (s.recordFailure chunk f).producer = .failing (g.within .recordStatus) ∧
        ∃ log ∈ s.log, log.takes s.files ⟨.error, chunk.name⟩ = false := by
  unfold recordFailure StatusLog.takes
  cases s.log with
  | none => exact .inl ⟨rfl, by simp⟩
  | some log =>
    cases hr : log.record s.files .error chunk.name with
    | mk outcome files =>
      cases outcome with
      | ok _ => exact .inl ⟨by simp only [hr], by simp [hr]⟩
      | error g => exact .inr ⟨g, by simp only [hr], by simp [hr]⟩

/-- A producer that has only a failure to tell tells it, or ends because nobody is there. -/
theorem Transition.of_told {move : IngestMove} {told : Failure} (h : s.Transition move none u)
    (hm : move ≠ .abandon) (hp : s.producer = .failing told ∨ s.producer = .ended) :
    u.producer = .ended ∧ u.abandoned = s.abandoned ∧
      (u.queue = s.queue ++ [.failure told] ∨ u.queue = s.queue ∧ s.abandoned = true) := by
  cases h with
  | list hl | next hl | receive _ hl | record hl | decode _ hl | decodeOn _ hl =>
    rcases hp with hp | hp <;>
      · rw [hp] at hl
        cases hl
  | send hl =>
    rcases hp with hp | hp
    · rw [hp] at hl
      cases hl
      exact ⟨rfl, rfl, .inl rfl⟩
    · rw [hp] at hl
      cases hl
  | giveUp ha => exact ⟨rfl, rfl, .inr ⟨rfl, ha⟩⟩
  | abandon => exact absurd rfl hm

theorem Transition.of_ended {move : IngestMove} (h : s.Transition move none u)
    (hm : move ≠ .abandon) (hp : s.producer = .ended) : u.producer = .ended := by
  cases h with
  | list hl | next hl | receive _ hl | record hl | decode _ hl | decodeOn _ hl | send hl =>
    rw [hp] at hl
    cases hl
  | giveUp => rfl
  | abandon => exact absurd rfl hm

end Ingest

namespace IngestRun

variable {Sink : Type} {r t u : IngestRun Sink} {ds : List Delivery} {told : Failure}

/-! ## Failures on their way to the writer -/

/-- Whatever failure the writer has taken, or finds in the queue, is one of these. -/
structure Passing (these : Failure → Prop) (ds : List Delivery) (r : IngestRun Sink) : Prop where
  only : ∀ g, .failure g ∈ ds ++ r.ingest.queue → these g
  notWell : r.writer ≠ .returned (.ok ())
  left : r.ingest.abandoned = true → ∃ g, r.writer = .returned (.error g)

/-- The producer is still at work, and there is no failure on the way. -/
structure Untold (ds : List Delivery) (r : IngestRun Sink) : Prop
    extends Passing (fun _ => False) ds r where
  reading : r.ingest.producer.isReading = true

/-- The producer has one failure to tell, or has told it. -/
structure Telling (told : Failure) (ds : List Delivery) (r : IngestRun Sink) : Prop
    extends Passing (· = told) ds r where
  producer : r.ingest.producer = .failing told ∨ r.ingest.producer = .ended
  kept : r.ingest.producer = .ended →
    (∃ g, r.writer = .returned (.error g)) ∨ .failure told ∈ r.ingest.queue
  passed : ∀ g, .failure g ∈ ds → r.writer = .returned (.error (g.within .decodeChunks))

theorem Untold.telling (h : Untold ds r) {u : Ingest} (hp : u.producer = .failing told)
    (hq : u.queue = r.ingest.queue) (ha : u.abandoned = r.ingest.abandoned) :
    Telling told ds { r with ingest := u } where
  only := fun g hg => (h.only g (hq ▸ hg)).elim
  notWell := h.notWell
  left := fun hleft => h.left (ha ▸ hleft)
  producer := .inl hp
  kept := fun hended => by rw [hp] at hended; cases hended
  passed := fun g hg => (h.only g (List.mem_append_left _ hg)).elim

/-- The producer's line, and what it tells afterwards. -/
theorem Untold.recordError (h : Untold ds r) {chunk : ChunkEntry} {f : Failure}
    {written : List StatusLine} (hl : ⟨.error, chunk.name⟩ ∉ written) :
    ∃ told, Telling told ds { r with ingest := r.ingest.recordFailure chunk f } ∧
      Failure.Told r.ingest.log ⟨.error, chunk.name⟩
        (written ++ linesIn (r.written? ⟨.error, chunk.name⟩)) f
        (.decodeChunk chunk.path.text) told := by
  obtain ⟨producer, files, hframe⟩ := r.ingest.recordFailure_frame chunk f
  have htelling : ∀ {told}, (r.ingest.recordFailure chunk f).producer = .failing told →
      Telling told ds { r with ingest := r.ingest.recordFailure chunk f } :=
    fun hp => h.telling hp (by rw [hframe]) (by rw [hframe])
  rcases r.ingest.recordFailure_tells chunk f with ⟨hp, -⟩ | ⟨g, hp, log, hlog, hrefused⟩
  · exact ⟨_, htelling hp, Failure.told_within _ _ _ _ _⟩
  · refine ⟨_, htelling hp, .inr ⟨by rw [hlog]; rfl, ?_, g, ⟨List.suffix_rfl, rfl⟩⟩⟩
    have hnone : r.written? ⟨.error, chunk.name⟩ = none := by
      unfold written?
      rw [hlog]
      simp [hrefused]
    simpa [hnone] using hl

theorem Passing.result?_ne_ok {these : Failure → Prop} (h : Passing these ds r) :
    r.result? ≠ some (.ok ()) :=
  fun hr => h.notWell (result?_eq_some.mp hr)

/-- The writer takes a batch. -/
theorem Passing.take {these : Failure → Prop} (h : Passing these ds r) {batch : AppearanceBatch}
    {queue : List Delivery} (hw : r.writer = .receiving)
    (hq : r.ingest.queue = .batch batch :: queue) :
    Passing these (ds ++ [.batch batch])
      { r with ingest := { r.ingest with queue }, writer := .inserting batch } where
  only := fun g hg => h.only g (by rw [hq]; simpa using hg)
  notWell := by simp
  left := fun ha => by
    obtain ⟨g, hg⟩ := h.left ha
    rw [hw] at hg
    cases hg

variable [AppearanceSink Sink]

theorem Transition.log_eq {move : RunMove} {output : Option RunOutput}
    (h : r.Transition move output t) : t.ingest.log = r.ingest.log := by
  cases h with
  | ingest _ _ hi => exact hi.frame.2.2.1
  | @recordError chunk f _ =>
    obtain ⟨producer, files, hframe⟩ := r.ingest.recordFailure_frame chunk f
    rw [hframe]
  | _ => rfl

/-- What the writer does with a batch in hand: it takes nothing from the ingest, and either goes on
or returns a failure. -/
theorem Transition.in_hand {output : Option RunOutput} (h : r.Transition .write output t)
    {batch : AppearanceBatch} (hb : r.writer.batch? = some batch) :
    takenIn output = [] ∧ t.ingest.producer = r.ingest.producer ∧
      t.writer ≠ .returned (.ok ()) ∧
      (t.ingest.queue = r.ingest.queue ∧ t.ingest.abandoned = r.ingest.abandoned ∨
        t.ingest.queue = [] ∧ ∃ g, t.writer = .returned (.error g)) := by
  cases h with
  | take hw | takeFailure hw | finish hw =>
    rw [hw] at hb
    cases hb
  | insert => exact ⟨rfl, rfl, by simp only; split <;> simp, .inl ⟨rfl, rfl⟩⟩
  | flush | refuse => exact ⟨rfl, rfl, by simp, .inl ⟨rfl, rfl⟩⟩
  | mark => exact ⟨takenIn_written? _ _, rfl, by simp, .inl ⟨rfl, rfl⟩⟩
  | reject => exact ⟨takenIn_written? _ _, rfl, by simp [returnWith], .inr ⟨rfl, _, rfl⟩⟩
  | recordFails => exact ⟨rfl, rfl, by simp [returnWith], .inr ⟨rfl, _, rfl⟩⟩

variable {these : Failure → Prop} {output : Option RunOutput} {batch : AppearanceBatch}

theorem Passing.in_hand (h : Passing these ds r) (ht : r.Transition .write output t)
    (hb : r.writer.batch? = some batch) : Passing these (ds ++ takenIn output) t := by
  obtain ⟨hout, -, hwell, hrest⟩ := ht.in_hand hb
  rw [hout, List.append_nil]
  rcases hrest with ⟨hq, ha⟩ | ⟨hq, hreturned⟩
  · refine ⟨hq ▸ h.only, hwell, fun hleft => ?_⟩
    obtain ⟨g, hg⟩ := h.left (ha ▸ hleft)
    rw [hg] at hb
    cases hb
  · refine ⟨fun g hg => h.only g (List.mem_append_left _ ?_), hwell, fun _ => hreturned⟩
    simpa [hq] using hg

theorem Untold.step (h : Untold ds r) {move : RunMove} (ht : r.Transition move output t)
    (hr : t.ingest.producer.isReading = true) : Untold (ds ++ takenIn output) t := by
  have hmove := ht
  cases ht with
  | ingest hm hn hi =>
    obtain ⟨-, hqueue⟩ := hi.reading hr
    refine ⟨⟨fun g hg => h.only g ?_, h.notWell, fun ha => h.left (hi.frame.2.2.2 hm.2 ▸ ha)⟩,
      hr⟩
    rw [takenIn_none, List.append_nil] at hg
    exact (List.mem_append.mp hg).elim (List.mem_append_left _)
      fun hg => List.mem_append_right _ (hqueue g hg)
  | @recordError chunk f _ =>
    obtain ⟨g, hg⟩ := r.ingest.exists_failing chunk f
    rw [hg] at hr
    cases hr
  | take hw hq => exact ⟨h.toPassing.take hw hq, hr⟩
  | @takeFailure f queue _ hq => exact (h.only f (by simp [hq])).elim
  | finish _ _ hp =>
    have hreading := h.reading
    rw [hp] at hreading
    cases hreading
  | insert hw | flush hw | mark hw | reject hw =>
    exact ⟨h.toPassing.in_hand hmove (by rw [hw]; rfl), hr⟩
  | refuse hs =>
    rcases hs with ⟨hw, -⟩ | ⟨hw, -⟩ <;> exact ⟨h.toPassing.in_hand hmove (by rw [hw]; rfl), hr⟩
  | recordFails hw =>
    rcases hw with ⟨hw, -⟩ | ⟨_, hw, -⟩ <;>
      exact ⟨h.toPassing.in_hand hmove (by rw [hw]; rfl), hr⟩

theorem Telling.in_hand (h : Telling told ds r) (ht : r.Transition .write output t)
    (hb : r.writer.batch? = some batch) : Telling told (ds ++ takenIn output) t := by
  obtain ⟨hout, hp, -, hrest⟩ := ht.in_hand hb
  refine ⟨h.toPassing.in_hand ht hb, hp ▸ h.producer, fun hended => ?_, fun g hg => ?_⟩
  · rcases hrest with ⟨hq, -⟩ | ⟨-, hreturned⟩
    · rcases h.kept (hp ▸ hended) with ⟨g, hg⟩ | hmem
      · rw [hg] at hb
        cases hb
      · exact .inr (hq ▸ hmem)
    · exact .inl hreturned
  · rw [hout, List.append_nil] at hg
    rw [h.passed g hg] at hb
    cases hb

theorem Telling.step (h : Telling told ds r) {move : RunMove} (ht : r.Transition move output t) :
    Telling told (ds ++ takenIn output) t := by
  have hmove := ht
  cases ht with
  | ingest hm hn hi =>
    rw [takenIn_none, List.append_nil]
    obtain ⟨hended, hu, hq⟩ := hi.of_told hm.2 h.producer
    refine ⟨⟨fun g hg => ?_, h.notWell, fun ha => h.left (hu ▸ ha)⟩, .inr hended, fun _ => ?_,
      h.passed⟩
    · rcases hq with hq | ⟨hq, -⟩ <;> rw [hq] at hg
      · rw [← List.append_assoc] at hg
        rcases List.mem_append.mp hg with hg | hg
        · exact h.only g hg
        · cases List.mem_singleton.mp hg
          rfl
      · exact h.only g hg
    · rcases hq with hq | ⟨-, ha⟩
      · exact .inr (by simp [hq])
      · exact .inl (h.left ha)
  | @recordError chunk f hp =>
    rcases h.producer with hl | hl <;>
      · rw [hp] at hl
        cases hl
  | take hw hq =>
    refine ⟨h.toPassing.take hw hq, h.producer, fun hended => .inr ?_, fun g hg => ?_⟩
    · rcases h.kept hended with ⟨g, hg⟩ | hmem
      · rw [hw] at hg
        cases hg
      · simpa [hq] using hmem
    · have hreturned := h.passed g (by simpa using hg)
      rw [hw] at hreturned
      cases hreturned
  | @takeFailure f queue hw hq =>
    obtain rfl := h.only f (by simp [hq])
    have hnone : ∀ g, .failure g ∉ ds := fun g hg => by
      have hreturned := h.passed g hg
      rw [hw] at hreturned
      cases hreturned
    have hone : ∀ g, .failure g ∈ ds ++ takenIn (some (.taken (.failure f))) → g = f := by
      intro g hg
      rcases List.mem_append.mp hg with hg | hg
      · exact absurd hg (hnone g)
      · cases List.mem_singleton.mp hg
        rfl
    refine ⟨⟨fun g hg => hone g (by simpa [returnWith] using hg), by simp [returnWith],
      fun _ => ⟨_, rfl⟩⟩, h.producer, fun _ => .inl ⟨_, rfl⟩, fun g hg => ?_⟩
    rw [hone g hg]
    rfl
  | finish hw hq hp =>
    rcases h.kept hp with ⟨g, hg⟩ | hmem
    · rw [hw] at hg
      cases hg
    · rw [hq] at hmem
      cases hmem
  | insert hw | flush hw | mark hw | reject hw => exact h.in_hand hmove (by rw [hw]; rfl)
  | refuse hs => rcases hs with ⟨hw, -⟩ | ⟨hw, -⟩ <;> exact h.in_hand hmove (by rw [hw]; rfl)
  | recordFails hw =>
    rcases hw with ⟨hw, -⟩ | ⟨_, hw, -⟩ <;> exact h.in_hand hmove (by rw [hw]; rfl)

/-! ## What is told afterwards -/

/-- Only the move that records a failed chunk gets a line of that kind into the log. -/
theorem Transition.error_line {move : RunMove} (h : r.Transition move output t) {name : String}
    (hmem : ⟨.error, name⟩ ∈ linesIn output) :
    ∃ chunk f, r.ingest.producer = .recording chunk f := by
  cases h with
  | recordError hp => exact ⟨_, _, hp⟩
  | mark | reject => cases eq_of_mem_linesIn_written? hmem
  | _ => cases hmem

/-- What can happen while a failed chunk is to be recorded. -/
theorem Transition.of_recording {move : RunMove} {chunk : ChunkEntry} {f : Failure}
    (h : r.Transition move output t) (hp : r.ingest.producer = .recording chunk f) :
    (t.ingest.producer = .recording chunk f ∧ ∀ name, ⟨.error, name⟩ ∉ linesIn output) ∨
      output = r.written? ⟨.error, chunk.name⟩ ∧
        t = { r with ingest := r.ingest.recordFailure chunk f } := by
  cases h with
  | ingest hm hn hi =>
    cases hi with
    | list hl | next hl | receive _ hl | decode _ hl | decodeOn _ hl | send hl =>
      rw [hp] at hl
      cases hl
    | giveUp | record => exact absurd hp (hn _ _ rfl)
    | abandon => exact absurd rfl hm.2
  | recordError hl =>
    rw [hp] at hl
    cases hl
    exact .inr ⟨rfl, rfl⟩
  | mark | reject => exact .inl ⟨hp, fun name hmem => nomatch eq_of_mem_linesIn_written? hmem⟩
  | _ => exact .inl ⟨hp, by simp⟩

/-- What the writer's move is when it has refused a batch to report. -/
theorem Transition.of_rejecting {move : RunMove} {f : Failure} (h : r.Transition move output t)
    (hw : r.writer = .rejecting batch f) :
    (t.writer = .rejecting batch f ∧ ∀ name, ⟨.appearanceError, name⟩ ∉ linesIn output) ∨
      t.writer = .returned (.error (f.within (.writeAppearances batch.chunkName))) ∨
      ∃ k : Failure, t.writer = .returned (.error (k.within .recordStatus)) ∧ output = none ∧
        r.ingest.log.isSome = true := by
  cases h with
  | ingest => exact .inl ⟨hw, by simp⟩
  | recordError => exact .inl ⟨hw, fun name hmem => nomatch eq_of_mem_linesIn_written? hmem⟩
  | take hl | takeFailure hl | finish hl | insert hl | flush hl | mark hl =>
    rw [hw] at hl
    cases hl
  | refuse hs =>
    rcases hs with ⟨hl, -⟩ | ⟨hl, -⟩ <;>
      · rw [hw] at hl
        cases hl
  | reject hl =>
    rw [hw] at hl
    cases hl
    exact .inr (.inl rfl)
  | recordFails hl hs =>
    obtain ⟨k, rfl⟩ := (written?_of_record_error hs).2
    refine .inr (.inr ⟨k, rfl, rfl, ?_⟩)
    cases hlog : r.ingest.log with
    | none =>
      simp only [record, hlog] at hs
      cases hs
    | some log => rfl

/-- A writer that has returned makes no move, and what it returned stays. -/
theorem Transition.of_returned {move : RunMove} {result : Except Failure Unit}
    (h : r.Transition move output t) (hw : r.writer = .returned result) :
    t.writer = .returned result ∧ (∀ name, ⟨.appearanceError, name⟩ ∉ linesIn output) ∧
      takenIn output = [] ∧ (r.ingest.producer = .ended → t.ingest.producer = .ended) := by
  cases h with
  | ingest hm hn hi =>
    exact ⟨hw, by simp, rfl, hi.of_ended hm.2⟩
  | recordError hl =>
    refine ⟨hw, fun name hmem => (nomatch eq_of_mem_linesIn_written? hmem), takenIn_written? _ _,
      fun hp => ?_⟩
    rw [hp] at hl
    cases hl
  | take hl | takeFailure hl | finish hl | insert hl | flush hl | mark hl | reject hl =>
    rw [hw] at hl
    cases hl
  | refuse hs =>
    rcases hs with ⟨hl, -⟩ | ⟨hl, -⟩ <;>
      · rw [hw] at hl
        cases hl
  | recordFails hl =>
    rcases hl with ⟨hl, -⟩ | ⟨_, hl, -⟩ <;>
      · rw [hw] at hl
        cases hl

/-- What has become of a chunk that failed. -/
inductive AfterFailure (chunk : ChunkEntry) (f : Failure) (ds : List Delivery)
    (written : List StatusLine) (r : IngestRun Sink) : Prop where
  | waiting (h : Untold ds r) (hp : r.ingest.producer = .recording chunk f)
      (hl : ∀ name, ⟨.error, name⟩ ∉ written)
  | telling {told : Failure} (h : Telling told ds r)
      (ht : Failure.Told r.ingest.log ⟨.error, chunk.name⟩ written f
        (.decodeChunk chunk.path.text) told)

theorem AfterFailure.step {chunk : ChunkEntry} {f : Failure} {written : List StatusLine}
    (h : AfterFailure chunk f ds written r) {move : RunMove} (ht : r.Transition move output t) :
    AfterFailure chunk f (ds ++ takenIn output) (written ++ linesIn output) t := by
  have hlog := ht.log_eq
  cases h with
  | waiting h hp hl =>
    rcases ht.of_recording hp with ⟨hkeep, hnone⟩ | ⟨rfl, rfl⟩
    · refine .waiting (h.step ht (by rw [hkeep]; rfl)) hkeep fun name hmem => ?_
      exact (List.mem_append.mp hmem).elim (hl name) (hnone name)
    · obtain ⟨told, htelling, htold⟩ := h.recordError (hl chunk.name)
      rw [← hlog] at htold
      rw [takenIn_written?, List.append_nil]
      exact .telling htelling htold
  | telling h htold =>
    refine .telling (h.step ht) ?_
    rw [hlog]
    refine htold.append fun hmem => ?_
    obtain ⟨chunk', f', hp⟩ := ht.error_line hmem
    rcases h.producer with hl | hl <;>
      · rw [hp] at hl
        cases hl

/-- What has become of a batch that the sink refused. -/
inductive AfterRefusal (batch : AppearanceBatch) (f : Failure) (written : List StatusLine)
    (r : IngestRun Sink) : Prop where
  | waiting (hw : r.writer = .rejecting batch f) (hl : ∀ name, ⟨.appearanceError, name⟩ ∉ written)
  | returned {g : Failure} (hw : r.writer = .returned (.error g))
      (ht : Failure.Told r.ingest.log ⟨.appearanceError, batch.chunkName⟩ written f
        (.writeAppearances batch.chunkName) g)

theorem AfterRefusal.step {f : Failure} {written : List StatusLine}
    (h : AfterRefusal batch f written r) {move : RunMove} (ht : r.Transition move output t) :
    AfterRefusal batch f (written ++ linesIn output) t := by
  have hlog := ht.log_eq
  cases h with
  | waiting hw hl =>
    rcases ht.of_rejecting hw with ⟨hkeep, hnone⟩ | hreturned | ⟨k, hreturned, rfl, hsome⟩
    · exact .waiting hkeep fun name hmem =>
        (List.mem_append.mp hmem).elim (hl name) (hnone name)
    · exact .returned hreturned (Failure.told_within _ _ _ _ _)
    · refine .returned hreturned (.inr ⟨hlog ▸ hsome, ?_, k, ⟨List.suffix_rfl, rfl⟩⟩)
      simpa using hl _
  | returned hw htold =>
    obtain ⟨hkeep, hnone, -⟩ := ht.of_returned hw
    exact .returned hkeep (by rw [hlog]; exact htold.append (hnone _))

/-- The producer was reading before. -/
theorem Transition.reading {move : RunMove} (h : r.Transition move output t)
    (ht : t.ingest.producer.isReading = true) : r.ingest.producer.isReading = true := by
  cases h with
  | ingest _ _ hi => exact (hi.reading ht).1
  | @recordError chunk f =>
    obtain ⟨g, hg⟩ := r.ingest.exists_failing chunk f
    rw [hg] at ht
    cases ht
  | _ => exact ht

section Start

variable {settings : IngestSettings} {directory : Path} {log : Option StatusLog}
  {files : FileStore} {sink : Sink} {events more : List (Event Sink)}

theorem log_of_trail (h : Trail shown r events t) : t.ingest.log = r.ingest.log := by
  induction h with
  | start => rfl
  | step _ hs ih => exact (transition_of_shown hs).log_eq.trans ih

theorem untold_of_trail (h : Trail shown (start settings directory log files sink) events t)
    (hp : t.ingest.producer.isReading = true) : Untold (deliveries events) t := by
  induction h with
  | start => exact ⟨⟨fun g hg => (nomatch hg), by simp [start], fun ha => (nomatch ha)⟩, rfl⟩
  | step _ hs ih =>
    have ht := transition_of_shown hs
    rw [deliveries_append, deliveries_single]
    exact (ih (ht.reading hp)).step ht hp

theorem afterFailure_of_trail {chunk : ChunkEntry} {f : Failure} (h : Untold ds t)
    (hp : t.ingest.producer = .recording chunk f) (h' : Trail shown t more r) :
    AfterFailure chunk f (ds ++ deliveries more) (lines more) r := by
  induction h' with
  | start => exact .waiting (by simpa using h) hp (by simp)
  | step _ hs ih =>
    rw [deliveries_append, deliveries_single, lines_append, lines_single, ← List.append_assoc]
    exact ih.step (transition_of_shown hs)

theorem afterRefusal_of_trail {f : Failure} (hw : t.writer = .rejecting batch f)
    (h' : Trail shown t more r) : AfterRefusal batch f (lines more) r := by
  induction h' with
  | start => exact .waiting hw (by simp)
  | step _ hs ih =>
    rw [lines_append, lines_single]
    exact ih.step (transition_of_shown hs)

/-- When a chunk has failed, every failure that the writer takes is that of the chunk, with its
cause and the path of its file; and the run does not end well, but with what the writer took, if it
took a failure. When the sink has refused a batch, the run ends with that failure and the name of
the chunk. In both cases it is the failure of the line instead if that did not get into the log. -/
theorem told_of_trail (h : Trail shown (start settings directory log files sink) events t)
    (h' : Trail shown t more r) :
    (∀ chunk f, t.ingest.producer = .recording chunk f →
      (∀ g, .failure g ∈ deliveries (events ++ more) →
        Failure.Told log ⟨.error, chunk.name⟩ (lines more) f (.decodeChunk chunk.path.text) g ∧
          r.result? = some (.error (g.within .decodeChunks))) ∧
      r.result? ≠ some (.ok ())) ∧
    (∀ batch f, t.writer = .rejecting batch f → ∀ result, r.result? = some result →
      ∃ g, result = .error g ∧
        Failure.Told log ⟨.appearanceError, batch.chunkName⟩ (lines more) f
          (.writeAppearances batch.chunkName) g) := by
  have hlog : r.ingest.log = log := (log_of_trail h').trans (log_of_trail h)
  constructor
  · intro chunk f hp
    have huntold := untold_of_trail h (by rw [hp]; rfl)
    rw [deliveries_append, ← hlog]
    cases afterFailure_of_trail huntold hp h' with
    | waiting h _ _ =>
      refine ⟨fun g hg => (h.only g (List.mem_append_left _ hg)).elim, ?_⟩
      exact h.result?_ne_ok
    | telling h htold =>
      refine ⟨fun g hg => ?_, h.result?_ne_ok⟩
      obtain rfl := h.only g (List.mem_append_left _ hg)
      exact ⟨htold, by simp only [result?, h.passed g hg]⟩
  · intro batch f hw result hr
    cases afterRefusal_of_trail hw h' with
    | waiting hwaiting =>
      simp only [result?, hwaiting] at hr
      cases hr
    | returned hreturned htold =>
      simp only [result?, hreturned, Option.some.injEq] at hr
      rw [hlog] at htold
      exact ⟨_, hr.symm, htold⟩

/-- Behind the line of a chunk that could not be decoded, its failure is on its way. -/
theorem exists_telling_of_line {name : String}
    (h : Trail shown (start settings directory log files sink) events t)
    (hl : ⟨.error, name⟩ ∈ lines events) : ∃ told, Telling told (deliveries events) t := by
  induction h with
  | start => cases hl
  | @step events t u move output htrail hs ih =>
    have ht := transition_of_shown hs
    rw [lines_append, lines_single] at hl
    rw [deliveries_append, deliveries_single]
    rcases List.mem_append.mp hl with hl | hl
    · obtain ⟨told, htelling⟩ := ih hl
      exact ⟨told, htelling.step ht⟩
    · obtain ⟨chunk, f, hp⟩ := ht.error_line hl
      have huntold := untold_of_trail htrail (by rw [hp]; rfl)
      rcases ht.of_recording hp with ⟨-, hnone⟩ | ⟨rfl, rfl⟩
      · exact absurd hl (hnone name)
      · obtain ⟨told, htelling, -⟩ := huntold.recordError List.not_mem_nil
        rw [takenIn_written?, List.append_nil]
        exact ⟨told, htelling⟩

/-- Behind the line of a batch that was refused, the run has failed. -/
theorem returned_of_refused_line {name : String} (h : Trail shown r events t)
    (hl : ⟨.appearanceError, name⟩ ∈ lines events) :
    ∃ g, t.writer = .returned (.error g) := by
  induction h with
  | start => cases hl
  | @step events t u move output _ hs ih =>
    have ht := transition_of_shown hs
    rw [lines_append, lines_single] at hl
    rcases List.mem_append.mp hl with hl | hl
    · obtain ⟨g, hg⟩ := ih hl
      exact ⟨g, (ht.of_returned hg).1⟩
    · cases ht with
      | reject => exact ⟨_, rfl⟩
      | recordError | mark => cases eq_of_mem_linesIn_written? hl
      | _ => cases hl

/-- A run that ends well has only lines of chunks that are done. -/
theorem lines_of_ok (h : Trail shown (start settings directory log files sink) events t)
    (hr : t.result? = some (.ok ())) :
    lines events = (namesOf .done (lines events)).map (StatusLine.mk .done) := by
  have hall : ∀ line ∈ lines events, line.status = .done := by
    rintro ⟨status, name⟩ hmem
    cases status with
    | done => rfl
    | error =>
      obtain ⟨told, htelling⟩ := exists_telling_of_line h hmem
      exact absurd hr htelling.result?_ne_ok
    | appearanceError =>
      obtain ⟨g, hg⟩ := returned_of_refused_line h hmem
      simp only [result?, hg] at hr
      cases hr
  exact eq_map_namesOf hall

end Start

/-! ## A chunk that fails where the log is full -/

/-- The status log is on a device that takes nothing more. -/
def fullLogFiles : FileStore := Ingest.sampleFiles.put ["status"] (.device true)

/-- Batches that the bad sample chunk does not fill before it fails. -/
def badPair : IngestSettings := { badOnly with batchSize := ⟨2, Nat.two_pos⟩ }

def recorded? (r : IngestRun Sink) : Option (ChunkEntry × Failure) :=
  match r.ingest.producer with
  | .recording chunk f => some (chunk, f)
  | _ => none

def failuresIn (deliveries : List Delivery) : List Failure :=
  deliveries.filterMap fun
    | .batch _ => none
    | .failure f => some f

theorem mem_of_mem_failuresIn {ds : List Delivery} {f : Failure} (h : f ∈ failuresIn ds) :
    .failure f ∈ ds := by
  obtain ⟨delivery, hmem, heq⟩ := List.mem_filterMap.mp h
  cases delivery with
  | batch => cases heq
  | failure g =>
    cases heq
    exact hmem

omit [AppearanceSink Sink] in
theorem eq_of_recorded? {chunk : ChunkEntry} {f : Failure}
    (h : r.recorded? = some (chunk, f)) : r.ingest.producer = .recording chunk f := by
  unfold recorded? at h
  split at h
  · next hp =>
    cases h
    exact hp
  · cases h

/-- The failure is recorded and told, and the writer takes it. -/
def toldMoves : List RunMove := [.ingest .produce, .ingest .produce, .write]

/-- The bad sample chunk up to where its failure is to be recorded, and from there on the failures
that the writer takes and the lines that get into the log. -/
def failingRun (log : Option StatusLog) (files : FileStore) :
    Option (ChunkEntry × Failure) × List Failure × List StatusLine :=
  let begun : IngestRun ShutSink :=
    ⟨(Ingest.new badPair ⟨"/chunks"⟩ log files).listedAs ((Ingest.sampleEntries.drop 1).take 1),
      ShutSink.mk, .receiving⟩
  let run := Trail.follow shown begun (ingestFirst.take 30)
  let rest := Trail.follow shown run.2 toldMoves
  (run.2.recorded?, failuresIn (deliveries rest.1), lines rest.1)

theorem exists_failing_trail (log : Option StatusLog) {files : FileStore}
    (hlist : ChunkEntry.list files ⟨"/chunks"⟩ badPair.window =
      .ok ((Ingest.sampleEntries.drop 1).take 1)) :
    ∃ events t more r, Trail shown (start badPair ⟨"/chunks"⟩ log files ShutSink.mk) events t ∧
      Trail shown t more r ∧ t.recorded? = (failingRun log files).1 ∧
      (∀ f ∈ (failingRun log files).2.1, .failure f ∈ deliveries (events ++ more)) ∧
      lines more = (failingRun log files).2.2 := by
  obtain ⟨events, htrail, -⟩ := trail_of_list log ShutSink.mk hlist (ingestFirst.take 30)
  refine ⟨events, _, _, _, htrail, Trail.trail_follow shown _ toldMoves, rfl, fun f hf => ?_, rfl⟩
  rw [deliveries_append]
  exact List.mem_append_right _ (mem_of_mem_failuresIn hf)

theorem told_of_long_span :
    (∃ events t more r chunk f g,
      Trail shown (start badPair ⟨"/chunks"⟩ none Ingest.sampleFiles ShutSink.mk) events t ∧
        Trail shown t more r ∧ t.ingest.producer = .recording chunk f ∧
        .failure g ∈ deliveries (events ++ more) ∧ g.Carries f ∧
        Activity.text (.decodeChunk chunk.path.text) ∈ g.chain ∧
        r.result? = some (.error (g.within .decodeChunks))) ∧
    ∃ events t more r chunk f g,
      Trail shown (start badPair ⟨"/chunks"⟩ (some ⟨["status"]⟩) Ingest.sampleFiles ShutSink.mk)
          events t ∧
        Trail shown t more r ∧ t.ingest.producer = .recording chunk f ∧
        lines more = [⟨.error, chunk.name⟩] ∧
        .failure g ∈ deliveries (events ++ more) ∧ g.Carries f ∧
        Activity.text (.decodeChunk chunk.path.text) ∈ g.chain ∧
        r.result? = some (.error (g.within .decodeChunks)) := by
  have hlist : ChunkEntry.list Ingest.sampleFiles ⟨"/chunks"⟩ badPair.window =
      .ok ((Ingest.sampleEntries.drop 1).take 1) :=
    ChunkEntry.list_of_sorted (by decide +kernel) (by decide)
  constructor
  · obtain ⟨events, t, more, r, htrail, hmore, hrecorded, hfailures, -⟩ :=
      exists_failing_trail none hlist
    have hrun : (failingRun none Ingest.sampleFiles).1.isSome = true ∧
        (failingRun none Ingest.sampleFiles).2.1.length = 1 := by
      decide +kernel
    obtain ⟨⟨chunk, f⟩, hchunk⟩ := Option.isSome_iff_exists.mp hrun.1
    obtain ⟨g, hg⟩ := List.length_eq_one_iff.mp hrun.2
    have hp := eq_of_recorded? (hrecorded.trans hchunk)
    have hmem := hfailures g (by simp [hg])
    obtain ⟨htold, hresult⟩ := ((told_of_trail htrail hmore).1 chunk f hp).1 g hmem
    rcases htold with ⟨hcarries, htext⟩ | ⟨hlog, -⟩
    · exact ⟨events, t, more, r, chunk, f, g, htrail, hmore, hp, hmem, hcarries, htext, hresult⟩
    · cases hlog
  · obtain ⟨events, t, more, r, htrail, hmore, hrecorded, hfailures, hlines⟩ :=
      exists_failing_trail (some ⟨["status"]⟩) hlist
    have hrun : let run := failingRun (some ⟨["status"]⟩) Ingest.sampleFiles
        run.1.any (fun entry => run.2.2 = [⟨.error, entry.1.name⟩]) = true ∧
          run.2.1.length = 1 := by
      decide +kernel
    obtain ⟨⟨chunk, f⟩, hchunk, hline⟩ := (Option.any_eq_true _ _).mp hrun.1
    obtain ⟨g, hg⟩ := List.length_eq_one_iff.mp hrun.2
    have hp := eq_of_recorded? (hrecorded.trans hchunk)
    have hmem := hfailures g (by simp [hg])
    have hwritten : lines more = [⟨.error, chunk.name⟩] := hlines.trans (of_decide_eq_true hline)
    obtain ⟨htold, hresult⟩ := ((told_of_trail htrail hmore).1 chunk f hp).1 g hmem
    rcases htold with ⟨hcarries, htext⟩ | ⟨-, hnone, -⟩
    · exact ⟨events, t, more, r, chunk, f, g, htrail, hmore, hp, hwritten, hmem, hcarries, htext,
        hresult⟩
    · exact absurd (hwritten ▸ List.mem_singleton_self _) hnone

/-- The line of the chunk does not get into the log, and its failure is told instead. -/
theorem cause_masked_of_full_log :
    ¬ ∀ (Sink : Type) [AppearanceSink Sink] (settings : IngestSettings) (directory : Path)
      (log : Option StatusLog) (files : FileStore) (sink : Sink) (events more : List (Event Sink))
      (t r : IngestRun Sink), Trail shown (start settings directory log files sink) events t →
      Trail shown t more r →
      (∀ chunk f, t.ingest.producer = .recording chunk f →
        ∀ g, .failure g ∈ deliveries (events ++ more) →
          g.Carries f ∧ Activity.text (.decodeChunk chunk.path.text) ∈ g.chain) ∧
      (∀ batch f, t.writer = .rejecting batch f → ∀ result, r.result? = some result →
        ∃ g, result = .error g ∧ g.Carries f ∧
          Activity.text (.writeAppearances batch.chunkName) ∈ g.chain) := by
  intro hall
  have hlist : ChunkEntry.list fullLogFiles ⟨"/chunks"⟩ badPair.window =
      .ok ((Ingest.sampleEntries.drop 1).take 1) :=
    ChunkEntry.list_of_sorted (by decide +kernel) (by decide)
  obtain ⟨events, t, more, r, htrail, hmore, hrecorded, hfailures, -⟩ :=
    exists_failing_trail (some ⟨["status"]⟩) hlist
  have hrun : (failingRun (some ⟨["status"]⟩) fullLogFiles).1.any
        (fun entry => entry.2.indexError?.isSome) = true ∧
      (failingRun (some ⟨["status"]⟩) fullLogFiles).2.1.any
        (fun g => g.indexError?.isNone) = true := by
    decide +kernel
  obtain ⟨⟨chunk, f⟩, hchunk, hf⟩ := (Option.any_eq_true _ _).mp hrun.1
  obtain ⟨g, hg, hnone⟩ := List.any_eq_true.mp hrun.2
  have hp := eq_of_recorded? (hrecorded.trans hchunk)
  have hcarries := ((hall _ _ _ _ _ _ _ _ _ _ htrail hmore).1 chunk f hp g (hfailures g hg)).1
  rw [hcarries.indexError, Option.isNone_iff_eq_none] at hnone
  rw [hnone] at hf
  cases hf

end IngestRun

end AppearanceIndex
