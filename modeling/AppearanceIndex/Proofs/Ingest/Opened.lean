import AppearanceIndex.Proofs.Files.Changes
import AppearanceIndex.Proofs.Ingest.Failing
import AppearanceIndex.Proofs.Ingest.Receive
import AppearanceIndex.Proofs.Trail

/-!
# What an ingest opens and records

The producer opens the chunk files of its listing in order and goes on to the next one only when
the one before is complete, so all chunks that it opened are sound but for the last
(`Ingest.Opens`). It changes no file until a chunk has failed; then its line is added to the log
(`Ingest.Recorded`), and no chunk is opened any more.
-/

namespace AppearanceIndex

/-- A line goes to the end of the log, and is there whole if and only if it is taken. -/
theorem StatusLog.adds_record (log : StatusLog) (files : FileStore) (status : ChunkStatus)
    (name : String) : ∃ kept, files.Adds (log.record files status name).2 log.place kept ∧
      kept <+: Utf8.encode (line status name) ∧
      ((log.record files status name).1 = .ok () ↔ kept = Utf8.encode (line status name)) := by
  obtain ⟨kept, hadds, hprefix, hall⟩ :=
    files.adds_append log.place (Utf8.encode (line status name))
  exact ⟨kept, hadds, hprefix,
    Iff.trans ⟨Activity.eq_of_ofIo, congrArg Activity.writeStatusLine.ofIo⟩ hall⟩

namespace Ingest

abbrev Event := AppearanceIndex.Event Ingest IngestMove Delivery

def Event.opened? (e : Event) : Option ChunkEntry :=
  match e.move, e.before.producer with
  | .produce, .between (chunk :: _) => some chunk
  | _, _ => none

def openedChunks (events : List Event) : List ChunkEntry := events.filterMap Event.opened?

@[simp] theorem openedChunks_append (events more : List Event) :
    openedChunks (events ++ more) = openedChunks events ++ openedChunks more :=
  List.filterMap_append

@[simp] theorem openedChunks_single (e : Event) : openedChunks [e] = e.opened?.toList := by
  cases h : e.opened? <;> simp [openedChunks, h]

variable {s t u : Ingest} {events : List Event} {deliveries : List Delivery}

theorem course_of_trail (h : Trail Ingest.step s events t) :
    s.Course (Trail.outputs events) t := by
  induction h with
  | start => exact .start
  | step _ hs ih =>
    rw [Trail.outputs_append, Trail.outputs_single]
    exact ih.step hs

theorem exists_trail_of_course (h : s.Course deliveries t) :
    ∃ events, Trail Ingest.step s events t ∧ Trail.outputs events = deliveries := by
  induction h with
  | start => exact ⟨[], .start, rfl⟩
  | @step _ t u move delivery _ hs ih =>
    obtain ⟨events, htrail, rfl⟩ := ih
    exact ⟨_, htrail.step hs, by simp⟩

section Files

variable (s : Ingest)

/-- The files when a chunk of this name has left its line in the log, if there is one. A log that
refuses the line keeps a beginning of it. -/
def Recorded (name : String) (files : FileStore) : Prop :=
  match s.log with
  | none => files = s.files
  | some log => ∃ kept, s.files.Adds files log.place kept ∧
      kept <+: Utf8.encode ("error\t" ++ name ++ "\n").toList ∧
      ((log.record s.files .error name).1 = .ok () ↔
        kept = Utf8.encode ("error\t" ++ name ++ "\n").toList)

/-- The listing begins with chunks that are sound. -/
structure Passes (passed left : List ChunkEntry) : Prop where
  listed : ChunkEntry.list s.files s.directory s.settings.window = .ok (passed ++ left)
  sound : ∀ chunk ∈ passed, ∃ bs, chunk.Sound s.files bs

/-- The chunks that the producer has opened when it has come to a state, and the files then. -/
inductive Opens : List ChunkEntry → FileStore → Producer → Prop where
  | listing : Opens [] s.files .listing
  | unlisted {f : Failure} {producer : Producer}
      (h : (Activity.listChunks s.directory.text).around
        (ChunkEntry.list s.files s.directory s.settings.window) = .error f)
      (hp : producer.isReading = false) : Opens [] s.files producer
  | between {passed left : List ChunkEntry} (h : s.Passes passed left) :
      Opens passed s.files (.between left)
  | decoding {passed left : List ChunkEntry} {chunk : ChunkEntry} {work : ChunkInProgress}
      (h : s.Passes passed (chunk :: left)) (hw : work.chunk = chunk) :
      Opens (passed ++ [chunk]) s.files (.decoding work left)
  | sending {passed left : List ChunkEntry} {chunk : ChunkEntry} {work : ChunkInProgress}
      {batch : AppearanceBatch} (h : s.Passes passed (chunk :: left)) (hw : work.chunk = chunk) :
      Opens (passed ++ [chunk]) s.files (.sending batch work left)
  | completing {passed left : List ChunkEntry} {batch : AppearanceBatch}
      (h : s.Passes passed left) : Opens passed s.files (.completing batch left)
  | recording {passed left : List ChunkEntry} {chunk : ChunkEntry} {f : Failure}
      (h : s.Passes passed (chunk :: left)) :
      Opens (passed ++ [chunk]) s.files (.recording chunk f)
  | stopped {passed left : List ChunkEntry} {chunk : ChunkEntry} {files : FileStore}
      {producer : Producer} (h : s.Passes passed (chunk :: left))
      (hbad : ∀ bs, ¬ chunk.Sound s.files bs) (hfiles : s.Recorded chunk.name files)
      (hp : producer.isReading = false) : Opens (passed ++ [chunk]) files producer
  | finished {passed : List ChunkEntry} (h : s.Passes passed []) : Opens passed s.files .ended

end Files

theorem Passes.snoc {passed left : List ChunkEntry} {chunk : ChunkEntry}
    (h : s.Passes passed (chunk :: left)) {bs : Bytes} (hs : chunk.Sound s.files bs) :
    s.Passes (passed ++ [chunk]) left where
  listed := by rw [h.listed, List.append_assoc]; rfl
  sound := by
    intro other hmem
    rcases List.mem_append.mp hmem with hmem | hmem
    · exact h.sound other hmem
    · rw [List.mem_singleton.mp hmem]
      exact ⟨bs, hs⟩

theorem Passes.not_mem {passed left : List ChunkEntry} {chunk : ChunkEntry}
    (h : s.Passes passed left) (hbad : ∀ bs, ¬ chunk.Sound s.files bs) : chunk ∉ passed := by
  intro hmem
  obtain ⟨bs, hs⟩ := h.sound chunk hmem
  exact hbad bs hs

/-- The first chunk that is not sound is where the sound ones end. -/
theorem Passes.unique {passed left passed' left' : List ChunkEntry} {chunk chunk' : ChunkEntry}
    (h : s.Passes passed (chunk :: left)) (hbad : ∀ bs, ¬ chunk.Sound s.files bs)
    (h' : s.Passes passed' (chunk' :: left')) (hbad' : ∀ bs, ¬ chunk'.Sound s.files bs) :
    passed = passed' ∧ chunk = chunk' ∧ left = left' := by
  have hlisted := h.listed.symm.trans h'.listed
  rw [Except.ok.injEq] at hlisted
  rcases List.append_eq_append_iff.mp hlisted with ⟨more, rfl, heq⟩ | ⟨more, rfl, heq⟩
  · cases more with
    | nil =>
      cases heq
      exact ⟨(List.append_nil _).symm, rfl, rfl⟩
    | cons first more =>
      cases heq
      exact absurd (by simp) (h'.not_mem hbad)
  · cases more with
    | nil =>
      cases heq
      exact ⟨List.append_nil _, rfl, rfl⟩
    | cons first more =>
      cases heq
      exact absurd (by simp) (h.not_mem hbad')

theorem files_recordFailure {log : StatusLog} (hl : t.log = some log) (chunk : ChunkEntry)
    (f : Failure) :
    (t.recordFailure chunk f).files = (log.record t.files .error chunk.name).2 := by
  unfold recordFailure
  simp only [hl]
  split <;> next heq => rw [heq]

theorem recorded_recordFailure (hl : t.log = s.log) (hf : t.files = s.files) (chunk : ChunkEntry)
    (f : Failure) : s.Recorded chunk.name (t.recordFailure chunk f).files := by
  unfold Recorded
  cases hlog : s.log with
  | none =>
    unfold recordFailure
    rw [hl, hlog]
    exact hf
  | some log =>
    have hadds := log.adds_record s.files .error chunk.name
    rw [files_recordFailure (hl.trans hlog), hf]
    simpa [StatusLog.line, ChunkStatus.text] using hadds

/-! ## The producer's moves -/

theorem opens_listChunks (h : s.Traced deliveries t) (hf : t.files = s.files) :
    s.Opens [] t.listChunks.files t.listChunks.producer := by
  unfold listChunks
  rw [h.directory, h.settings, hf]
  cases hlist : (Activity.listChunks s.directory.text).around
      (ChunkEntry.list s.files s.directory s.settings.window) with
  | error f => exact .unlisted hlist rfl
  | ok chunks => exact .between ⟨Activity.eq_of_around hlist, by simp⟩

theorem opens_onNextChunk (hp : s.settings.Possible) {passed left : List ChunkEntry}
    (h : s.Passes passed left) :
    s.Opens (passed ++ left.head?.toList) s.files (.onNextChunk s.settings s.files left) := by
  cases left with
  | nil =>
    rw [List.head?_nil, Option.toList_none, List.append_nil]
    exact .finished h
  | cons chunk left =>
    simp only [Producer.onNextChunk, List.head?_cons, Option.toList_some]
    cases hstart : ChunkInProgress.start s.settings s.files chunk with
    | refused f => exact .recording h
    | aborted => exact absurd hstart (start_ne_aborted hp chunk)
    | started stream => exact .decoding h rfl

/-- What the producer receives makes no difference to what it has opened; a chunk whose last batch
it has made is sound. -/
theorem opens_onReceived {passed left : List ChunkEntry} {chunk : ChunkEntry}
    {work : ChunkInProgress} {size : Nat} (h : s.Passes passed (chunk :: left))
    (received : Received) (hproduced : s.Produced deliveries (.onReceived size work left received))
    (hw : work.chunk = chunk) :
    s.Opens (passed ++ [chunk]) s.files (.onReceived size work left received) := by
  subst hw
  cases received with
  | appearance d =>
    simp only [Producer.onReceived]
    split
    · exact .sending h rfl
    · exact .decoding h rfl
  | failure f => exact .recording h
  | finished =>
    simp only [Producer.onReceived] at hproduced ⊢
    split at hproduced
    · cases hproduced with
      | @completing done _ chunk batches _ hdone hcompletes =>
        have hlisted := hdone.listed.symm.trans h.listed
        rw [Except.ok.injEq, List.append_cons, List.append_cons passed] at hlisted
        obtain ⟨-, hsame⟩ := List.append_inj' (List.append_cancel_right hlisted) rfl
        cases hsame
        obtain ⟨bs, -, hsound, -⟩ := hcompletes.whole
        exact .completing (h.snoc hsound)
    · exact .recording h

theorem opens_afterReceive {opened left : List ChunkEntry} {work : ChunkInProgress}
    {outcome : Option Received × DecodeStream} (hf : t.files = s.files)
    (h : s.Opens opened t.files (.decoding work left))
    (hproduced : s.Produced deliveries (t.afterReceive work left outcome).producer) :
    s.Opens opened (t.afterReceive work left outcome).files
      (t.afterReceive work left outcome).producer := by
  obtain ⟨received, stream⟩ := outcome
  rw [hf] at h
  cases h with
  | decoding hpasses hw =>
    cases received with
    | none =>
      simp only [afterReceive, hf]
      exact .decoding hpasses hw
    | some received =>
      simp only [afterReceive, hf] at hproduced ⊢
      exact opens_onReceived hpasses received hproduced hw
  | unlisted _ hn | stopped _ _ _ hn => cases hn

/-- The chunk whose failure is recorded is not sound. -/
theorem opens_recordFailure (hp : s.settings.Possible) (hl : t.log = s.log)
    (hf : t.files = s.files) {opened : List ChunkEntry} {chunk : ChunkEntry} {f : Failure}
    (h : s.Opens opened t.files (.recording chunk f))
    (hproduced : s.Produced deliveries (.recording chunk f)) :
    s.Opens opened (t.recordFailure chunk f).files (t.recordFailure chunk f).producer := by
  obtain ⟨g, hg⟩ := t.exists_failing chunk f
  have hrecorded := recorded_recordFailure hl hf chunk f
  rw [hg]
  rw [hf] at h
  cases hproduced with
  | recording _ hfails =>
    cases h with
    | recording hpasses =>
      exact .stopped hpasses (fun bs hs => not_fails hp hs hfails) hrecorded rfl
    | unlisted _ hn | stopped _ _ _ hn => cases hn

theorem opens_send {opened : List ChunkEntry} {files : FileStore} {producer next : Producer}
    {delivery : Delivery} (h : s.Opens opened files producer)
    (hp : producer.pending = some (delivery, next)) : s.Opens opened files next := by
  have hover : producer.isReading = false → next.isReading = false := by
    intro hproducer
    refine Bool.eq_false_iff.mpr fun hnext => ?_
    rw [Producer.isReading_of_pending hp hnext] at hproducer
    cases hproducer
  cases h with
  | sending h hw => cases hp; exact .decoding h hw
  | completing h => cases hp; exact .between h
  | unlisted h hended => exact .unlisted h (hover hended)
  | stopped h hbad hfiles hended => exact .stopped h hbad hfiles (hover hended)
  | _ => cases hp

theorem opened?_eq_none {e : Event} (h : ∀ chunks, e.before.producer ≠ .between chunks) :
    e.opened? = none := by
  unfold Event.opened?
  split
  · next hbetween => exact absurd hbetween (h _)
  · rfl

/-- One move of an ingest whose consumer stays. -/
theorem Opens.step (hp : s.settings.Possible) {opened : List ChunkEntry}
    (h : s.Opens opened t.files t.producer) (htraced : s.Traced deliveries t)
    (ha : t.abandoned = false) {move : IngestMove} {delivery : Option Delivery}
    (ht : t.Transition move delivery u) (hm : move ≠ .abandon) :
    s.Opens (opened ++ (Event.opened? ⟨t, move, delivery, u⟩).toList) u.files u.producer := by
  have hread := htraced.files ha
  have hnext := (produced_of_transition htraced ha ht hm).1
  -- only between two chunks is one opened
  have hkeep : (∀ chunks, t.producer ≠ .between chunks) → s.Opens opened u.files u.producer →
      s.Opens (opened ++ (Event.opened? ⟨t, move, delivery, u⟩).toList) u.files u.producer := by
    intro hn hu
    rwa [opened?_eq_none hn, Option.toList_none, List.append_nil]
  cases ht with
  | list hl =>
    rw [hl] at h hread hkeep
    refine hkeep (fun _ hn => nomatch hn) ?_
    generalize t.files = files at h
    cases h with
    | listing => exact opens_listChunks htraced (hread rfl)
    | unlisted _ hn | stopped _ _ _ hn => cases hn
  | @next left hl =>
    have hsame : t.files = s.files := hread (by rw [hl]; rfl)
    have hopened : Event.opened?
        ⟨t, .produce, none, { t with producer := .onNextChunk t.settings t.files left }⟩ =
          left.head? := by
      simp only [Event.opened?, hl]
      cases left <;> rfl
    rw [hl] at h
    rw [hopened]
    simp only [htraced.settings, hsame]
    generalize t.files = files at h
    cases h with
    | between hpasses => exact opens_onNextChunk hp hpasses
    | unlisted _ hn | stopped _ _ _ hn => cases hn
  | @receive work left move outcome hd hl hs =>
    rw [hl] at h hread hkeep
    exact hkeep (fun _ hn => nomatch hn) (opens_afterReceive (hread rfl) h hnext)
  | send hl _ =>
    refine hkeep (fun chunks hb => ?_) (opens_send h hl)
    rw [hb] at hl
    cases hl
  | giveUp hn =>
    rw [ha] at hn
    cases hn
  | @record chunk f hl =>
    have hproduced := htraced.produced ha
    rw [hl] at h hread hkeep hproduced
    exact hkeep (fun _ hn => nomatch hn)
      (opens_recordFailure hp htraced.log (hread rfl) h hproduced)
  | @decode work left move stream hd hl hs =>
    rw [hl] at h hread hkeep
    refine hkeep (fun _ hn => nomatch hn) ?_
    simp only [hread rfl] at h ⊢
    cases h with
    | decoding hpasses hw => exact .decoding hpasses hw
    | unlisted _ hn | stopped _ _ _ hn => cases hn
  | @decodeOn batch work left move stream hd hl hs =>
    rw [hl] at h hread hkeep
    refine hkeep (fun _ hn => nomatch hn) ?_
    simp only [hread rfl] at h ⊢
    cases h with
    | sending hpasses hw => exact .sending hpasses hw
    | unlisted _ hn | stopped _ _ _ hn => cases hn
  | take _ hq =>
    have hnone : ∀ e : Event, e.move = .receive → e.opened? = none := by
      intro e he
      simp only [Event.opened?, he]
    rwa [hnone _ rfl, Option.toList_none, List.append_nil]
  | abandon => exact absurd rfl hm

theorem opens_of_trail {settings : IngestSettings} {directory : Path} {log : Option StatusLog}
    {files : FileStore} (hp : settings.Possible)
    (h : Trail Ingest.step (new settings directory log files) events t)
    (ha : t.abandoned = false) :
    (new settings directory log files).Opens (openedChunks events) t.files t.producer := by
  induction h with
  | start => exact .listing
  | @step events t u move delivery htrail hs ih =>
    have ht := transition_of_step hs
    obtain ⟨hm, hat⟩ := ht.stays ha
    rw [openedChunks_append, openedChunks_single]
    exact (ih hat).step hp (course_of_trail htrail).traced hat ht hm

end Ingest

end AppearanceIndex
