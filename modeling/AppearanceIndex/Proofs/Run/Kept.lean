import AppearanceIndex.Proofs.Run.Causes
import AppearanceIndex.Proofs.Run.LastBatches
import AppearanceIndex.Proofs.Run.Rows

/-!
# What a run has written

A run adds rows to one file and lines to another. Both files may refuse what is written to them and
keep a part of it. A write to the sink that failed comes to light at the latest when the sink is
flushed, so a chunk that is to be marked has all its rows in the file (`IngestRun.Poured`). A line
that the log refused is cut off (`IngestRun.LogText`), in a run that is bound to fail. Every move
keeps this (`IngestRun.Kept.step`).
-/

namespace AppearanceIndex

/-! ## What is in the files -/

namespace IngestRun

/-- What lines are written as. -/
def logText (written : List StatusLine) : Bytes :=
  written.flatMap fun line => Utf8.encode (StatusLog.line line.status line.name)

/-- What a log keeps of lines: those that it took, and of each that it refused a beginning. -/
inductive LogText : List StatusLine → List StatusLine → Bytes → Prop where
  | nil : LogText [] [] []
  | taken {written refused : List StatusLine} {text : Bytes} (h : LogText written refused text)
      (line : StatusLine) : LogText (written ++ [line]) refused (text ++ logText [line])
  | refused {written refused : List StatusLine} {text kept : Bytes}
      (h : LogText written refused text) (line : StatusLine) (hk : kept <+: logText [line])
      (hne : kept ≠ logText [line]) : LogText written (refused ++ [line]) (text ++ kept)

/-- The rows of the batches taken up to the last one of the chunk are in the file. -/
def Filled (old : Bytes) (taken : List AppearanceBatch) (content : Bytes) (name : String) : Prop :=
  ∃ before batch, before ++ [batch] <+: taken ∧ batch.lastInChunk = true ∧
    batch.chunkName = name ∧ old ++ Rows.text (Rows.ofBatches (before ++ [batch])) <+: content

/-- All rows of the batches are in the file or pending, unless a write has failed unnoticed. -/
def Balanced (old : Bytes) (batches : List AppearanceBatch) (content : Bytes)
    (pending : Option Bytes) : Prop :=
  ∀ rest, pending = some rest → content ++ rest = old ++ Rows.text (Rows.ofBatches batches)

/-- The batches taken are balanced, and something can be pending or have failed unnoticed only if
the last of them is not the last of its chunk. -/
structure Settled (old : Bytes) (taken : List AppearanceBatch) (names : List String)
    (content : Bytes) (pending : Option Bytes) : Prop where
  rows : Balanced old taken content pending
  names_eq : names = lastNames taken
  idle : pending = some [] ∨ ∃ batch, taken.getLast? = some batch ∧ batch.lastInChunk = false

/-- What the file holds and what is pending, for the batches taken and the chunks that are done. -/
inductive Poured (old : Bytes) (taken : List AppearanceBatch) (names : List String)
    (content : Bytes) (pending : Option Bytes) : Writer → Prop where
  | receiving (h : Settled old taken names content pending) :
      Poured old taken names content pending .receiving
  | inserting {before : List AppearanceBatch} {batch : AppearanceBatch}
      (ht : taken = before ++ [batch]) (hb : Balanced old before content pending)
      (hn : names = lastNames before) : Poured old taken names content pending (.inserting batch)
  | flushing {before : List AppearanceBatch} {batch : AppearanceBatch}
      (ht : taken = before ++ [batch]) (hl : batch.lastInChunk = true)
      (hb : Balanced old taken content pending)
      (hn : names = lastNames before) : Poured old taken names content pending (.flushing batch)
  | marking {before : List AppearanceBatch} {batch : AppearanceBatch}
      (ht : taken = before ++ [batch]) (hl : batch.lastInChunk = true)
      (hb : content = old ++ Rows.text (Rows.ofBatches taken)) (hp : pending = some [])
      (hn : names = lastNames before) : Poured old taken names content pending (.marking batch)
  | rejecting {batch : AppearanceBatch} {f : Failure} :
      Poured old taken names content pending (.rejecting batch f)
  | finished (h : Settled old taken names content pending) :
      Poured old taken names content pending (.returned (.ok ()))
  | failed {g : Failure} : Poured old taken names content pending (.returned (.error g))

variable {Sink : Type} {r t : IngestRun Sink} {place : Place} {log : StatusLog}
  {old oldLog content more text : Bytes} {pending next : Option Bytes} {ds : List Delivery}
  {written refused : List StatusLine} {taken before : List AppearanceBatch}
  {batch : AppearanceBatch} {name : String} {line : StatusLine}

theorem Filled.append (h : Filled old taken content name) (batches : List AppearanceBatch)
    (more : Bytes) : Filled old (taken ++ batches) (content ++ more) name := by
  obtain ⟨before, batch, hpre, hlast, hname, hcontent⟩ := h
  exact ⟨before, batch, hpre.trans (List.prefix_append _ _), hlast, hname,
    hcontent.trans (List.prefix_append _ _)⟩

/-- When a chunk is to be marked, its rows are in the file. -/
theorem Poured.filled {names : List String}
    (h : Poured old taken names content pending (.marking batch)) :
    Filled old taken content batch.chunkName := by
  cases h with
  | @marking before _ ht hl hb =>
    have hall : old ++ Rows.text (Rows.ofBatches (before ++ [batch])) = content := by
      rw [← ht, ← hb]
    exact ⟨before, batch, ht ▸ List.prefix_rfl, hl, rfl, hall ▸ List.prefix_rfl⟩

theorem balanced_nil (old : Bytes) : Balanced old [] old (some []) := by
  intro rest hrest
  cases hrest
  rfl

/-- The sink has taken rows in and written some bytes. -/
theorem Balanced.pour (h : Balanced old before content pending) {batches : List AppearanceBatch}
    (hp : ∀ rest, next = some rest →
      ∃ due, pending = some due ∧ more ++ rest = due ++ Rows.text (Rows.ofBatches batches)) :
    Balanced old (before ++ batches) (content ++ more) next := by
  intro rest hrest
  obtain ⟨due, hdue, hsum⟩ := hp rest hrest
  rw [List.append_assoc, hsum, ← List.append_assoc, h due hdue, Rows.ofBatches_append,
    Rows.text_append, List.append_assoc]

theorem Poured.received {names : List String}
    (h : Poured old taken names content pending .receiving) (batch : AppearanceBatch) :
    Poured old (taken ++ [batch]) names content pending (.inserting batch) := by
  cases h with
  | receiving hsettled => exact .inserting rfl hsettled.rows hsettled.names_eq

theorem Poured.inserted {names : List String}
    (h : Poured old taken names content pending (.inserting batch))
    (hp : ∀ rest, next = some rest →
      ∃ due, pending = some due ∧ more ++ rest = due ++ Rows.text (Rows.ofBatches [batch])) :
    Poured old taken names (content ++ more) next
      (if batch.lastInChunk then .flushing batch else .receiving) := by
  cases h with
  | @inserting before _ ht hb hn =>
    have hall : Balanced old taken (content ++ more) next := ht ▸ hb.pour hp
    cases hl : batch.lastInChunk with
    | true => exact .flushing ht hl hall hn
    | false =>
      have hnames : names = lastNames taken := by
        rw [hn, ht, lastNames_snoc, hl]
        simp
      exact .receiving ⟨hall, hnames, .inr ⟨batch, by simp [ht], hl⟩⟩

/-- Whatever write had failed before, the flush would have told. -/
theorem Poured.flushed {names : List String}
    (h : Poured old taken names content pending (.flushing batch))
    (hp : ∀ rest, next = some rest → ∃ due, pending = some due ∧ more ++ rest = due ++ [])
    (hn : next = some []) : Poured old taken names (content ++ more) next (.marking batch) := by
  cases h with
  | flushing ht hl hb hnames =>
    obtain ⟨due, hdue, hsum⟩ := hp [] hn
    rw [List.append_nil, List.append_nil] at hsum
    exact .marking ht hl (by rw [hsum, hb due hdue]) hn hnames

theorem Poured.marked {names : List String}
    (h : Poured old taken names content pending (.marking batch)) :
    Poured old taken (names ++ [batch.chunkName]) content pending .receiving := by
  cases h with
  | marking ht hl hb hp hn =>
    refine .receiving ⟨fun rest hrest => ?_, ?_, .inl hp⟩
    · rw [hp] at hrest
      cases hrest
      rw [List.append_nil, hb]
    · rw [hn, ht, lastNames_snoc, hl]
      rfl

@[simp] theorem logText_append (written more : List StatusLine) :
    logText (written ++ more) = logText written ++ logText more := List.flatMap_append

/-- A log that refused nothing holds its lines. -/
theorem LogText.eq_logText (h : LogText written [] text) : text = logText written := by
  generalize hnone : ([] : List StatusLine) = refused at h
  induction h with
  | nil => rfl
  | taken _ line ih => rw [ih hnone, logText_append]
  | refused => simp at hnone

/-- The line, if there is a log and it does not take it. -/
def refusals (r : IngestRun Sink) (line : StatusLine) : List StatusLine :=
  match r.ingest.log with
  | none => []
  | some log => if log.takes r.ingest.files line then [] else [line]

theorem eq_of_mem_refusals {other : StatusLine} (h : other ∈ r.refusals line) : other = line := by
  unfold refusals at h
  split at h
  · cases h
  · split at h
    · cases h
    · exact List.mem_singleton.mp h

theorem refusals_eq_nil {output : RunOutput} (h : r.written? line = some output) :
    r.refusals line = [] := by
  unfold written? at h
  unfold refusals
  split
  · rfl
  · next log hl =>
    simp only [hl] at h
    split at h
    · next htakes => rw [if_pos htakes]
    · cases h

/-- The line is taken or refused, if there is a log. -/
theorem written_or_refused (r : IngestRun Sink) (line : StatusLine) :
    (linesIn (r.written? line) ++ r.refusals line).Sublist [line] := by
  rcases r.written?_eq line with hnone | hsome
  · rw [hnone, linesIn_none, List.nil_append]
    unfold refusals
    split
    · exact List.nil_sublist _
    · split
      · exact List.nil_sublist _
      · exact List.Sublist.refl _
  · rw [refusals_eq_nil hsome, hsome, List.append_nil]
    exact List.Sublist.refl _

/-- Whether the log takes a line or refuses it, the file of the log says so. -/
theorem exists_logText_of_record (hl : r.ingest.log = some log) (line : StatusLine) :
    ∃ kept,
      r.ingest.files.Adds (log.record r.ingest.files line.status line.name).2 log.place kept ∧
      ∀ {written refused text}, LogText written refused text →
        LogText (written ++ linesIn (r.written? line)) (refused ++ r.refusals line)
          (text ++ kept) := by
  obtain ⟨kept, hadds, hprefix, hall⟩ := log.adds_record r.ingest.files line.status line.name
  have hline : logText [line] = Utf8.encode (StatusLog.line line.status line.name) :=
    List.flatMap_singleton _ _
  rw [← hline] at hprefix hall
  refine ⟨kept, hadds, fun {written refused text} h => ?_⟩
  cases htakes : log.takes r.ingest.files line with
  | true =>
    have hwritten : r.written? line = some (.line line) := by
      simp only [written?, hl, htakes, if_true]
    rw [refusals_eq_nil hwritten, hwritten, hall.mp (StatusLog.takes_iff.mp htakes),
      List.append_nil]
    exact h.taken line
  | false =>
    have hwritten : r.written? line = none := by simp [written?, hl, htakes]
    have hrefused : r.refusals line = [line] := by simp [refusals, hl, htakes]
    have hcut : kept ≠ logText [line] := fun hwhole => by
      rw [StatusLog.takes_iff.mpr (hall.mpr hwhole)] at htakes
      cases htakes
    rw [hwritten, hrefused, linesIn_none, List.append_nil]
    exact h.refused line hprefix hcut

/-- A record that succeeds has got its line into the log, if there is one. -/
theorem written?_of_record_ok (hl : r.ingest.log = some log) {status : ChunkStatus}
    (h : r.record status name = (.ok (), t)) :
    r.written? ⟨status, name⟩ = some (.line ⟨status, name⟩) := by
  simp only [record, hl, Prod.mk.injEq] at h
  have htakes : log.takes r.ingest.files ⟨status, name⟩ = true :=
    StatusLog.takes_iff.mpr (Activity.eq_of_around h.1)
  simp only [written?, hl, htakes, if_true]

theorem files_record (hl : r.ingest.log = some log) {status : ChunkStatus}
    {result : Except Failure Unit} (h : r.record status name = (result, t)) :
    t.ingest.files = (log.record r.ingest.files status name).2 := by
  unfold record at h
  rw [hl] at h
  cases h
  rfl

/-! ## What a run keeps -/

/-- The run cannot end well any more: a failure is on its way to the writer, or got there. -/
def BoundToFail (ds : List Delivery) (r : IngestRun Sink) : Prop :=
  (∃ told, Telling told ds r) ∨ ∃ g, r.writer = .returned (.error g)

theorem BoundToFail.result?_ne_ok (h : BoundToFail ds r) : r.result? ≠ some (.ok ()) := by
  rcases h with ⟨told, htelling⟩ | ⟨g, hg⟩
  · exact htelling.result?_ne_ok
  · intro hr
    rw [result?_eq_some, hg] at hr
    cases hr

variable [RowAppender Sink]

/-- What a run has written so far, for the lines that the log took and those that it refused. -/
structure Kept (place : Place) (log : StatusLog) (old oldLog : Bytes) (ds : List Delivery)
    (written refused : List StatusLine) (r : IngestRun Sink) : Prop where
  sink : RowAppender.place r.sink = place
  logged : r.ingest.log = some log
  lines : ∃ text, r.ingest.files.Holds log.place (oldLog ++ text) ∧ LogText written refused text
  filled : ∃ content, r.ingest.files.Holds place content ∧
    Poured old (batchesIn ds) (namesOf .done written) content (RowAppender.pending r.sink)
      r.writer ∧
    ∀ name, ⟨.done, name⟩ ∈ written ++ refused → Filled old (batchesIn ds) content name

/-- A line has gone to the log or was refused, and the writer has moved on. -/
theorem Kept.record (h : Kept place log old oldLog ds written refused r) (hd : place ≠ log.place)
    (line : StatusLine)
    (hf : t.ingest.files = (log.record r.ingest.files line.status line.name).2)
    (hs : t.sink = r.sink) (hl : t.ingest.log = some log)
    (hw : ∀ {content}, Poured old (batchesIn ds) (namesOf .done written) content
        (RowAppender.pending r.sink) r.writer →
      Poured old (batchesIn ds) (namesOf .done (written ++ linesIn (r.written? line))) content
        (RowAppender.pending r.sink) t.writer ∧
      (line.status = .done → Filled old (batchesIn ds) content line.name)) :
    Kept place log old oldLog ds (written ++ linesIn (r.written? line))
      (refused ++ r.refusals line) t := by
  obtain ⟨kept, hadds, hlog⟩ := exists_logText_of_record h.logged line
  obtain ⟨text, htext, hlines⟩ := h.lines
  obtain ⟨content, ⟨limits, hcontent⟩, hpoured, hfilled⟩ := h.filled
  obtain ⟨hnext, hdone⟩ := hw hpoured
  rw [← hf] at hadds
  refine ⟨by rw [hs]; exact h.sink, hl, ⟨_, ?_, hlog hlines⟩, content, ⟨limits, ?_⟩,
    by rw [hs]; exact hnext, fun name hmem => ?_⟩
  · rw [← List.append_assoc]
    exact hadds.holds htext
  · rw [hadds.node?_of_ne hd, hcontent]
  · have hnew : (⟨.done, name⟩ : StatusLine) ∈ written ++ refused ∨ ⟨.done, name⟩ = line := by
      simp only [List.mem_append] at hmem ⊢
      rcases hmem with (hmem | hmem) | hmem | hmem
      · exact .inl (.inl hmem)
      · exact .inr (eq_of_mem_linesIn_written? hmem)
      · exact .inl (.inr hmem)
      · exact .inr (eq_of_mem_refusals hmem)
    rcases hnew with hold | rfl
    · exact hfilled name hold
    · exact hdone rfl

/-- The sink has been called, and the writer has moved on. -/
theorem Kept.pour (h : Kept place log old oldLog ds written refused r) (hd : place ≠ log.place)
    {bs : Bytes} {result : Except Failure Unit} {sink : Sink} {files : FileStore}
    (hp : Pours RowAppender.place RowAppender.pending r.sink r.ingest.files bs
      (result, sink, files)) {writer : Writer}
    (hw : ∀ {content}, Poured old (batchesIn ds) (namesOf .done written) content
        (RowAppender.pending r.sink) r.writer →
      ∀ more, (result = .ok () → ∀ rest, RowAppender.pending sink = some rest →
          ∃ due, RowAppender.pending r.sink = some due ∧ more ++ rest = due ++ bs) →
        Poured old (batchesIn ds) (namesOf .done written) (content ++ more)
          (RowAppender.pending sink) writer) :
    Kept place log old oldLog ds written refused
      { ingest := { r.ingest with files }, sink := sink, writer := writer } := by
  obtain ⟨text, ⟨limits, htext⟩, hlines⟩ := h.lines
  obtain ⟨content, hcontent, hpoured, hfilled⟩ := h.filled
  obtain ⟨more, hadds, hplace, hok⟩ := hp
  rw [h.sink] at hadds
  refine ⟨hplace.trans h.sink, h.logged, ⟨text, ⟨limits, ?_⟩, hlines⟩, content ++ more,
    hadds.holds hcontent, hw hpoured more hok, fun name hmem => ?_⟩
  · rw [hadds.node?_of_ne (Ne.symm hd), htext]
  · simpa using (hfilled name hmem).append [] more

/-- The writer has moved on, and nothing was written. -/
theorem Kept.turn (h : Kept place log old oldLog ds written refused r) {es : List Delivery}
    (hf : t.ingest.files = r.ingest.files) (hs : t.sink = r.sink) (hl : t.ingest.log = some log)
    (hw : ∀ {content}, Poured old (batchesIn ds) (namesOf .done written) content
        (RowAppender.pending r.sink) r.writer →
      Poured old (batchesIn (ds ++ es)) (namesOf .done written) content
        (RowAppender.pending r.sink) t.writer) :
    Kept place log old oldLog (ds ++ es) written refused t := by
  obtain ⟨content, hcontent, hpoured, hfilled⟩ := h.filled
  refine ⟨by rw [hs]; exact h.sink, hl, by rw [hf]; exact h.lines, content,
    by rw [hf]; exact hcontent, by rw [hs]; exact hw hpoured, fun name hmem => ?_⟩
  rw [batchesIn_append]
  simpa using (hfilled name hmem).append (batchesIn es) []

theorem BoundToFail.step (h : BoundToFail ds r) {move : RunMove} {output : Option RunOutput}
    (ht : r.Transition move output t) : BoundToFail (ds ++ takenIn output) t := by
  rcases h with ⟨told, htelling⟩ | ⟨g, hg⟩
  · exact .inl ⟨told, htelling.step ht⟩
  · exact .inr ⟨g, (ht.of_returned hg).1⟩

/-- The writer and the ingest have moved, and no line was due. -/
theorem Kept.step_of_due_none (h : Kept place log old oldLog ds written refused r)
    (hd : place ≠ log.place) {move : RunMove} {output : Option RunOutput}
    (ht : r.Transition move output t) (hnone : r.due move = none) :
    Kept place log old oldLog (ds ++ takenIn output) written refused t := by
  have hlog := ht.log_eq.trans h.logged
  cases ht with
  | ingest hm hn hi => exact h.turn (hi.files_eq hn) rfl hlog (by simp)
  | @take batch queue hw hq =>
    refine h.turn rfl rfl hlog fun hpoured => ?_
    rw [hw] at hpoured
    simpa using hpoured.received batch
  | takeFailure => exact h.turn rfl rfl hlog fun _ => .failed
  | finish hw =>
    refine h.turn rfl rfl hlog fun hpoured => ?_
    rw [hw] at hpoured
    cases hpoured with
    | receiving hsettled => exact .finished (by simpa using hsettled)
  | @insert batch sink files hw hs =>
    rw [takenIn_none, List.append_nil]
    refine h.pour hd (RowAppender.pours_of_insert hs) fun hpoured more hrows => ?_
    rw [hw] at hpoured
    exact hpoured.inserted (hrows rfl)
  | @flush batch sink files hw hs =>
    have hempty := RowAppender.pending_flush r.sink r.ingest.files
    rw [hs] at hempty
    rw [takenIn_none, List.append_nil]
    refine h.pour hd (RowAppender.pours_of_flush hs) fun hpoured more hrows => ?_
    rw [hw] at hpoured
    exact hpoured.flushed (hrows rfl) (hempty rfl)
  | refuse hs =>
    rw [takenIn_none, List.append_nil]
    rcases hs with ⟨-, hs⟩ | ⟨-, hs⟩
    · exact h.pour hd (RowAppender.pours_of_insert hs) fun _ _ _ => .rejecting
    · exact h.pour hd (RowAppender.pours_of_flush hs) fun _ _ _ => .rejecting
  | recordError hp => simp [due, hp] at hnone
  | mark hw | reject hw => simp [due, hw] at hnone
  | recordFails hw => rcases hw with ⟨hw, -⟩ | ⟨_, hw, -⟩ <;> simp [due, hw] at hnone

/-- A line was due. If it was refused, the run is bound to fail. -/
theorem Kept.step_of_due_some (h : Kept place log old oldLog ds written refused r)
    (hd : place ≠ log.place) (hun : r.ingest.producer.isReading = true → Untold ds r)
    {move : RunMove} {output : Option RunOutput} (ht : r.Transition move output t)
    (hline : r.due move = some line) :
    Kept place log old oldLog (ds ++ takenIn output) (written ++ linesIn output)
        (refused ++ r.refusals line) t ∧
      (linesIn output ++ r.refusals line).Sublist [line] ∧
      (r.refusals line = [] ∨ BoundToFail (ds ++ takenIn output) t) := by
  have hlog := ht.log_eq.trans h.logged
  have hwhole := r.written_or_refused line
  cases ht with
  | @recordError chunk f hp =>
    obtain rfl : ⟨.error, chunk.name⟩ = line := by simpa [due, hp] using hline
    have hnone : (⟨.error, chunk.name⟩ : StatusLine) ∉ [] := List.not_mem_nil
    obtain ⟨told, htelling, -⟩ := (hun (by rw [hp]; rfl)).recordError hnone
    have hfiles := Ingest.files_recordFailure h.logged chunk f
    rw [takenIn_written?, List.append_nil]
    refine ⟨h.record hd _ hfiles rfl hlog fun hpoured => ⟨?_, fun hdone => by cases hdone⟩, hwhole,
      .inr (.inl ⟨told, htelling⟩)⟩
    rw [namesOf_append, namesOf_of_sublist (linesIn_written?_sublist _ _)]
    simpa using hpoured
  | @mark batch files hw hs =>
    obtain rfl : ⟨.done, batch.chunkName⟩ = line := by simpa [due, hw] using hline
    have htaken := written?_of_record_ok h.logged hs
    have hfiles := files_record h.logged hs
    rw [takenIn_written?, List.append_nil]
    refine ⟨h.record hd _ hfiles rfl hlog fun hpoured => ?_, hwhole,
      .inl (refusals_eq_nil htaken)⟩
    rw [hw] at hpoured
    rw [htaken, linesIn_line, namesOf_append]
    exact ⟨hpoured.marked, fun _ => hpoured.filled⟩
  | @reject batch f files hw hs =>
    obtain rfl : ⟨.appearanceError, batch.chunkName⟩ = line := by simpa [due, hw] using hline
    have hfiles := files_record h.logged hs
    rw [takenIn_written?, List.append_nil]
    exact ⟨h.record hd _ hfiles rfl hlog fun _ => ⟨.failed, fun hdone => by cases hdone⟩, hwhole,
      .inr (.inr ⟨_, rfl⟩)⟩
  | @recordFails batch status f files hw hs =>
    obtain rfl : ⟨status, batch.chunkName⟩ = line := by
      rcases hw with ⟨hw, rfl⟩ | ⟨g, hw, rfl⟩ <;> simpa [due, hw] using hline
    have hlost := (written?_of_record_error hs).1
    have hfiles := files_record h.logged hs
    -- the line of a chunk that is done is cut off behind the rows of the chunk, too
    have hfilled : ∀ {content}, Poured old (batchesIn ds) (namesOf .done written) content
        (RowAppender.pending r.sink) r.writer → status = .done →
          Filled old (batchesIn ds) content batch.chunkName := by
      intro content hpoured hdone
      rcases hw with ⟨hw, -⟩ | ⟨_, -, rfl⟩
      · rw [hw] at hpoured
        exact hpoured.filled
      · cases hdone
    have hrecord := h.record (t := returnWith { r with ingest := { r.ingest with files } }
      (.error f)) hd ⟨status, batch.chunkName⟩ hfiles rfl hlog
      fun hpoured => ⟨.failed, hfilled hpoured⟩
    rw [hlost] at hrecord hwhole
    rw [takenIn_none, List.append_nil]
    exact ⟨hrecord, hwhole, .inr (.inr ⟨_, rfl⟩)⟩
  | ingest _ hn => simp [due_ingest hn] at hline
  | take hw | takeFailure hw | finish hw | insert hw | flush hw => simp [due, hw] at hline
  | refuse hs => rcases hs with ⟨hw, -⟩ | ⟨hw, -⟩ <;> simp [due, hw] at hline

/-- Every move keeps it, and no line is refused but in a run that is bound to fail. -/
theorem Kept.step (h : Kept place log old oldLog ds written refused r) (hd : place ≠ log.place)
    (hun : r.ingest.producer.isReading = true → Untold ds r)
    {move : RunMove} {output : Option RunOutput} (ht : r.Transition move output t) :
    ∃ more, Kept place log old oldLog (ds ++ takenIn output) (written ++ linesIn output)
        (refused ++ more) t ∧
      (linesIn output ++ more).Sublist (r.due move).toList ∧
      (more = [] ∨ BoundToFail (ds ++ takenIn output) t) := by
  cases hdue : r.due move with
  | none =>
    have hlines : linesIn output = [] :=
      List.sublist_nil.mp (by simpa [hdue] using ht.linesIn_sublist)
    refine ⟨[], ?_, by simp [hlines], .inl rfl⟩
    rw [hlines, List.append_nil, List.append_nil]
    exact h.step_of_due_none hd ht hdue
  | some line => exact ⟨_, h.step_of_due_some hd hun ht hdue⟩

end IngestRun

end AppearanceIndex
