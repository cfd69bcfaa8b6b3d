import AppearanceIndex.Proofs.Ingest.Quiet
import AppearanceIndex.Proofs.Run.Causes
import AppearanceIndex.Proofs.Run.Rows

/-!
# A run and its ingest alone

A run reads chunk files while it writes to two other files. Where no listed chunk file is one of
those, the writer takes what an ingest would give it that finds all files as they were in the
beginning (`IngestRun.Follows`), up to the first chunk that fails: whether the log takes the line
of that chunk may depend on the lines before it, so the failure behind it is not compared
(`IngestRun.Comes`). When a run ends well, such an ingest has ended quietly.
-/

namespace AppearanceIndex

namespace Ingest

variable {t u : Ingest} {files : FileStore}

theorem onNextChunk_congr {settings : IngestSettings} {old new : FileStore}
    {chunks : List ChunkEntry}
    (h : ∀ chunk ∈ chunks.head?, new.contentOf chunk.path = old.contentOf chunk.path) :
    Producer.onNextChunk settings new chunks = Producer.onNextChunk settings old chunks := by
  cases chunks with
  | nil => rfl
  | cons chunk chunks =>
    have hstart : ChunkInProgress.start settings new chunk =
        ChunkInProgress.start settings old chunk := by
      unfold ChunkInProgress.start
      rw [h chunk rfl]
    simp only [Producer.onNextChunk, hstart]

/-- Whatever the files are, the move is the same, if the next chunk is and nothing else of them is
read or written. -/
theorem Transition.refile {move : IngestMove} {delivery : Option Delivery}
    (h : t.Transition move delivery u) (hl : t.producer ≠ .listing)
    (hn : ∀ chunks, t.producer = .between chunks →
      Producer.onNextChunk t.settings files chunks =
        Producer.onNextChunk t.settings t.files chunks)
    (hr : ∀ chunk f, move = .produce → t.producer ≠ .recording chunk f) :
    Transition { t with files } move delivery { u with files } := by
  cases h with
  | list hp => exact absurd hp hl
  | @next chunks hp =>
    rw [← hn chunks hp]
    exact .next hp
  | @receive work chunks move outcome hm hp hs =>
    have hnext := Transition.receive (s := { t with files }) hm hp hs
    obtain ⟨received, stream⟩ := outcome
    cases received <;> exact hnext
  | send hp ha => exact .send hp ha
  | giveUp ha => exact .giveUp ha
  | record hp => exact absurd hp (hr _ _ rfl)
  | decode hm hp hs => exact .decode hm hp hs
  | decodeOn hm hp hs => exact .decodeOn hm hp hs
  | take ha hq => exact .take ha hq
  | abandon => exact .abandon

/-- What was produced stays, whatever has become of the files. -/
theorem Traced.refile {s : Ingest} {deliveries : List Delivery} (h : s.Traced deliveries t) :
    s.Traced deliveries { t with files := s.files } :=
  { h with files := fun _ _ => rfl }

end Ingest

namespace IngestRun

variable {Sink : Type} {r t : IngestRun Sink} {place : Place} {log : StatusLog}

def Written (place : Place) (log : StatusLog) (other : Place) : Prop :=
  other = place ∨ other = log.place

/-- A line goes to the end of the log, and is there whole if and only if it is taken. -/
theorem adds_of_record (hl : r.ingest.log = some log) {status : ChunkStatus} {name : String}
    {result : Except Failure Unit} (h : r.record status name = (result, t)) :
    ∃ kept, r.ingest.files.Adds t.ingest.files log.place kept ∧
      kept <+: Utf8.encode (StatusLog.line status name) ∧
      (result = .ok () ↔ kept = Utf8.encode (StatusLog.line status name)) := by
  obtain ⟨kept, hadds, hprefix, hall⟩ := log.adds_record r.ingest.files status name
  unfold record at h
  rw [hl] at h
  cases h
  exact ⟨kept, hadds, hprefix,
    Iff.trans ⟨Activity.eq_of_around, congrArg Activity.recordStatus.around⟩ hall⟩

/-- No listed chunk file lies where the run writes. -/
def Outside (s : Ingest) (place : Place) (log : StatusLog) : Prop :=
  ∀ chunks, ChunkEntry.list s.files s.directory s.settings.window = .ok chunks →
    ∀ chunk ∈ chunks, ¬ Written place log (s.files.target chunk.path)

variable {s : Ingest} {ds : List Delivery} {written : List StatusLine} {todo rest : List String}

/-- How far a run has come whose writer is at work: its ingest as far as one over the files of the
beginning, or to the first chunk that fails, and then no batch is produced any more. -/
def Comes (s : Ingest) (ds : List Delivery) (r : IngestRun Sink) : Prop :=
  s.Traced ds { r.ingest with files := s.files } ∨
    (∃ told, Telling told ds r) ∧ ∃ produced producer, s.Produced produced producer ∧
      batchesIn (ds ++ r.ingest.queue) = batchesIn produced

theorem Comes.batchesIn_begins (h : Comes s ds r) :
    ∃ produced producer, s.Produced produced producer ∧ batchesIn ds <+: batchesIn produced := by
  rcases h with htraced | ⟨-, produced, producer, hproduced, hall⟩
  · obtain ⟨produced, producer, hproduced, hpre⟩ := htraced.prefix_produced
    exact ⟨produced, producer, hproduced, hpre.filterMap _⟩
  · rw [batchesIn_append] at hall
    exact ⟨produced, producer, hproduced, hall ▸ List.prefix_append _ _⟩

variable [RowAppender Sink] {move : RunMove} {output : Option RunOutput}

/-- A run changes what its sink and its log hold, and nothing else. -/
theorem Transition.agrees (h : r.Transition move output t) (hl : r.ingest.log = some log)
    (hp : RowAppender.place r.sink = place) :
    r.ingest.files.Agrees (Written place log) t.ingest.files ∧
      RowAppender.place t.sink = place := by
  have hsink : ∀ {bs} {result : Except Failure Unit} {sink : Sink} {files : FileStore},
      Pours RowAppender.place RowAppender.pending r.sink r.ingest.files bs (result, sink, files) →
      r.ingest.files.Agrees (Written place log) files ∧ RowAppender.place sink = place := by
    rintro bs result sink files ⟨written, hadds, hplace, -⟩
    exact ⟨hadds.agrees (.inl hp), hplace.trans hp⟩
  cases h with
  | ingest hm hn hi =>
    rw [hi.files_eq hn]
    exact ⟨.refl _ _, hp⟩
  | @recordError chunk f =>
    obtain ⟨kept, hadds, -⟩ := log.adds_record r.ingest.files .error chunk.name
    rw [← Ingest.files_recordFailure hl chunk f] at hadds
    exact ⟨hadds.agrees (.inr rfl), hp⟩
  | take | takeFailure | finish => exact ⟨.refl _ _, hp⟩
  | insert _ hs => exact hsink (RowAppender.pours_of_insert hs)
  | flush _ hs => exact hsink (RowAppender.pours_of_flush hs)
  | refuse hs =>
    rcases hs with ⟨-, hs⟩ | ⟨-, hs⟩
    · exact hsink (RowAppender.pours_of_insert hs)
    · exact hsink (RowAppender.pours_of_flush hs)
  | mark _ hs | reject _ hs | recordFails _ hs =>
    obtain ⟨kept, hadds, -⟩ := adds_of_record hl hs
    exact ⟨hadds.agrees (.inr rfl), hp⟩

/-- What the writer has taken from the ingest, when the chunks are listed. -/
structure Follows (s : Ingest) (place : Place) (log : StatusLog) (ds : List Delivery)
    (r : IngestRun Sink) : Prop where
  comes : (∀ result, r.writer ≠ .returned result) → Comes s ds r
  taken : ∃ produced producer, s.Produced produced producer ∧ batchesIn ds <+: batchesIn produced
  agrees : s.files.Agrees (Written place log) r.ingest.files
  sink : RowAppender.place r.sink = place
  logged : r.ingest.log = some log
  listed : r.ingest.producer ≠ .listing
  failed : ∀ f, .failure f ∈ ds → ∃ g, r.writer = .returned (.error g)
  quiet : r.writer = .returned (.ok ()) → s.Quiet ds ∧ r.ingest.producer = .ended

/-- The next chunk reads as it did in the beginning. -/
theorem Follows.onNextChunk_eq (h : Follows s place log ds r) (ho : Outside s place log)
    (htraced : s.Traced ds { r.ingest with files := s.files })
    (ha : r.ingest.abandoned = false) {chunks : List ChunkEntry}
    (hp : r.ingest.producer = .between chunks) :
    Producer.onNextChunk r.ingest.settings s.files chunks =
      Producer.onNextChunk r.ingest.settings r.ingest.files chunks := by
  have hproduced := htraced.produced ha
  simp only [hp] at hproduced
  generalize ds ++ r.ingest.queue = produced at hproduced
  cases hproduced with
  | @between done _ hdone =>
    refine Ingest.onNextChunk_congr fun chunk hmem => ?_
    have hlisted := ho _ hdone.listed chunk
      (List.mem_append_right _ (List.mem_of_mem_head? hmem))
    exact (h.agrees.contentOf_eq hlisted).symm

/-- Before a chunk fails, the moves are those of the ingest alone. -/
theorem Follows.comes_traced (h : Follows s place log ds r) (ho : Outside s place log)
    (htraced : s.Traced ds { r.ingest with files := s.files }) (ha : r.ingest.abandoned = false)
    (hun : r.ingest.producer.isReading = true → Untold ds r) (ht : r.Transition move output t)
    (hw : ∀ result, t.writer ≠ .returned result) : Comes s (ds ++ takenIn output) t := by
  cases ht with
  | ingest hm hn hi =>
    have hsame := hi.refile h.listed (fun _ => h.onNextChunk_eq ho htraced ha) hn
    exact .inl (by simpa using htraced.step hsame)
  | @recordError chunk f hp =>
    -- whether the log takes the line is not asked
    have hproduced := htraced.produced ha
    have hnone : (⟨.error, chunk.name⟩ : StatusLine) ∉ [] := List.not_mem_nil
    obtain ⟨told, htelling, -⟩ := (hun (by rw [hp]; rfl)).recordError hnone
    obtain ⟨producer, files, hframe⟩ := r.ingest.recordFailure_frame chunk f
    rw [takenIn_written?, List.append_nil]
    exact .inr ⟨⟨told, htelling⟩, _, _, hproduced, by rw [hframe]⟩
  | take _ hq => exact .inl (htraced.step (.take ha hq))
  | insert | flush | refuse =>
    rw [takenIn_none, List.append_nil]
    exact .inl htraced
  | mark =>
    rw [takenIn_written?, List.append_nil]
    exact .inl htraced
  | takeFailure | finish | reject | recordFails => exact absurd rfl (hw _)

/-- After it only its failure is put into the queue. -/
theorem Telling.batchesIn_eq {told : Failure} (h : Telling told ds r)
    (ht : r.Transition move output t) (hw : ∀ result, t.writer ≠ .returned result) :
    batchesIn (ds ++ takenIn output ++ t.ingest.queue) = batchesIn (ds ++ r.ingest.queue) := by
  cases ht with
  | ingest hm hn hi =>
    obtain ⟨-, -, hq | ⟨hq, -⟩⟩ := hi.of_told hm.2 h.producer <;> simp [hq]
  | @recordError chunk f hp =>
    obtain ⟨producer, files, hframe⟩ := r.ingest.recordFailure_frame chunk f
    simp [hframe]
  | take _ hq => simp [hq]
  | insert | flush | refuse | mark => simp
  | takeFailure | finish | reject | recordFails => exact absurd rfl (hw _)

/-- While the writer is at work, the run keeps coming along with its ingest. -/
theorem Follows.comes_step (h : Follows s place log ds r) (ha : Account written r todo rest)
    (hun : r.ingest.producer.isReading = true → Untold ds r) (ho : Outside s place log)
    (ht : r.Transition move output t) (hw : ∀ result, t.writer ≠ .returned result) :
    Comes s (ds ++ takenIn output) t := by
  have hwork : ∀ result, r.writer ≠ .returned result :=
    fun result hr => hw result (ht.of_returned hr).1
  rcases h.comes hwork with htraced | ⟨⟨told, htelling⟩, produced, producer, hproduced, hall⟩
  · exact h.comes_traced ho htraced (ha.stays hwork) hun ht hw
  · exact .inr ⟨⟨told, htelling.step ht⟩, produced, producer, hproduced,
      (htelling.batchesIn_eq ht hw).trans hall⟩

/-- A writer that comes to the end has taken everything from an ingest that ended quietly. -/
theorem Follows.quiet_of_finish (h : Follows s place log ds r) (ha : Account written r todo rest)
    (hw : r.writer = .receiving) (hq : r.ingest.queue = []) (hp : r.ingest.producer = .ended) :
    s.Quiet ds := by
  have hwork : ∀ result, r.writer ≠ .returned result := by simp [hw]
  rcases h.comes hwork with htraced | ⟨⟨told, htelling⟩, -⟩
  · have hproduced := htraced.produced (ha.stays hwork)
    simp only [hq, hp, List.append_nil] at hproduced
    refine Ingest.quiet_of_produced hproduced fun f hf => ?_
    obtain ⟨g, hg⟩ := h.failed f hf
    exact hwork _ hg
  · exact absurd rfl (htelling.step (.finish hw hq hp)).notWell

/-- Every move of the run leaves it so. -/
theorem Follows.step (h : Follows s place log ds r) (ha : Account written r todo rest)
    (hun : r.ingest.producer.isReading = true → Untold ds r) (ho : Outside s place log)
    (ht : r.Transition move output t) (hu : t.ingest.producer ≠ .listing) :
    Follows s place log (ds ++ takenIn output) t := by
  obtain ⟨hagrees, hsink⟩ := ht.agrees h.logged h.sink
  have hcomes := h.comes_step ha hun ho ht
  refine ⟨hcomes, ?_, h.agrees.trans hagrees, hsink, ht.log_eq.trans h.logged, hu, ?_, ?_⟩
  · by_cases hw : ∀ result, t.writer ≠ .returned result
    · exact (hcomes hw).batchesIn_begins
    · -- who returns takes no batch
      have hsame : batchesIn (ds ++ takenIn output) = batchesIn ds := by
        cases ht with
        | take => exact absurd (by simp) hw
        | _ => simp
      rw [hsame]
      exact h.taken
  · intro f hf
    rcases List.mem_append.mp hf with hold | hnew
    · obtain ⟨g, hg⟩ := h.failed f hold
      exact ⟨g, (ht.of_returned hg).1⟩
    · cases ht with
      | takeFailure => exact ⟨_, rfl⟩
      | _ => simp at hnew
  · intro hwell
    by_cases hw : ∀ result, r.writer ≠ .returned result
    · cases ht with
      | finish hr hq hp =>
        rw [takenIn_none, List.append_nil]
        exact ⟨h.quiet_of_finish ha hr hq hp, hp⟩
      | ingest | recordError => exact absurd hwell (hw _)
      | insert =>
        simp only at hwell
        split at hwell <;> cases hwell
      | take | flush | refuse | mark | takeFailure | reject | recordFails => cases hwell
    · simp only [ne_eq, not_forall, not_not] at hw
      obtain ⟨result, hr⟩ := hw
      obtain ⟨hkept, -, hnone, hended⟩ := ht.of_returned hr
      rw [hkept] at hwell
      rw [hnone, List.append_nil]
      obtain ⟨hquiet, hp⟩ := h.quiet (hr.trans hwell)
      exact ⟨hquiet, hended hp⟩

section Start

variable {settings : IngestSettings} {directory : Path} {files : FileStore} {sink : Sink}
  {events : List (Event Sink)}

/-- A run follows its ingest from the first move on. -/
theorem follows_of_trail
    (ho : Outside (.new settings directory (some log) files) (RowAppender.place sink) log)
    (h : Trail shown (start settings directory (some log) files sink) events r) :
    (events = [] ∧ r = start settings directory (some log) files sink) ∨
      Follows (.new settings directory (some log) files) (RowAppender.place sink) log
        (deliveries events) r ∧ ∃ todo rest, Account (lines events) r todo rest := by
  induction h with
  | start => exact .inl ⟨rfl, rfl⟩
  | @step events t u move output htrail hs ih =>
    have ht := transition_of_shown hs
    right
    rw [deliveries_append, deliveries_single, lines_append, lines_single]
    rcases ih with ⟨rfl, rfl⟩ | ⟨hfollows, todo, rest, haccount⟩
    · obtain ⟨rfl, rfl⟩ := ht.of_fresh rfl rfl rfl rfl
      obtain ⟨todo, haccount⟩ := exists_account_of_fresh
        (r := start settings directory (some log) files sink) rfl rfl rfl
      have hnext := (Ingest.traced_new settings directory (some log) files).step (.list rfl)
      rw [Option.toList_none, List.append_nil] at hnext
      have hcomes : Comes (.new settings directory (some log) files) []
          (⟨(Ingest.new settings directory (some log) files).listChunks, sink, .receiving⟩ :
            IngestRun Sink) := .inl hnext.refile
      obtain ⟨producer, hframe⟩ :=
        (Ingest.new settings directory (some log) files).listChunks_frame
      have hlisted : ∀ {producer}, Producer.Awaits producer todo → producer ≠ .listing := by
        rintro _ hawaits rfl
        exact hawaits
      refine ⟨⟨fun _ => hcomes, hcomes.batchesIn_begins, ?_, rfl, ?_, hlisted haccount.awaits,
        by simp, by simp [start]⟩, todo, todo, haccount⟩
      · show FileStore.Agrees _ files (Ingest.listChunks _).files
        rw [start, hframe]
        exact .refl _ _
      · show (Ingest.listChunks _).log = _
        rw [start, hframe]
        rfl
    · obtain ⟨todo', rest', haccount'⟩ := haccount.step ht ht.linesIn_sublist
      refine ⟨hfollows.step haccount (untold_of_trail htrail) ho ht ?_, todo', rest', haccount'⟩
      intro hlisting
      have hawaits := haccount'.awaits
      rw [hlisting] at hawaits
      exact hawaits

end Start

end IngestRun

end AppearanceIndex
