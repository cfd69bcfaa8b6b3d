import AppearanceIndex.Proofs.Run.Followed
import AppearanceIndex.Proofs.Run.Kept

/-!
# What a done line promises

A line that says that a chunk is done is written when the last batch of the chunk is in and the
sink has been flushed behind it. So the file of the sink holds the rows of all batches of the chunk
by then, and they are all that the chunk declares (`IngestRun.Durable`). Both files may refuse what
is written to them at any time. A run that ends well has been refused nothing and has done every
chunk, in the order of the listing (`IngestRun.AllDone`).
-/

namespace AppearanceIndex

namespace IngestRun

variable {Sink : Type} {r : IngestRun Sink} {log : StatusLog} {old oldLog content : Bytes}
  {ds : List Delivery} {name : String}

/-! ## Chunks that are done -/

/-- All appearances of a chunk are in the file, each in one row. -/
structure Durable (s : Ingest) (ds : List Delivery) (content : Bytes) (chunk : ChunkEntry)
    (bs : Bytes) : Prop where
  sound : chunk.Sound s.files bs
  perm : (Ingest.appearancesOf (batchesOf chunk.name ds)).Perm (Chunk.decoded bs)
  rows : Rows.Holds content (Rows.ofBatches (batchesOf chunk.name ds))
  count : (Rows.ofBatches (batchesOf chunk.name ds)).length =
    (Chunk.header bs).appearanceCount.toNat

/-- All chunks of the listing are done, in its order. -/
structure AllDone (s : Ingest) (written : List StatusLine) (old content : Bytes)
    (done : List (ChunkEntry × List AppearanceBatch)) : Prop where
  listed : ChunkEntry.list s.files s.directory s.settings.window = .ok (done.map Prod.fst)
  newestFirst : (done.map Prod.fst).Pairwise fun a b => a.noOlder b = true
  whole : ∀ entry ∈ done, s.Whole entry.1 entry.2
  lines : written = done.map fun entry => ⟨.done, entry.1.name⟩
  rows : content = old ++ Rows.text (Rows.ofBatches (done.flatMap Prod.snd))

variable {s : Ingest}

/-- What is filled up to the last batch of a chunk holds the chunk. -/
theorem durable_of_filled (ho : old = [] ∨ old.getLast? = some 10)
    (hf : Filled old (batchesIn ds) content name) {produced : List Delivery} {producer : Producer}
    (hp : s.Produced produced producer) (htaken : batchesIn ds <+: batchesIn produced) :
    ∃ chunks chunk bs, ChunkEntry.list s.files s.directory s.settings.window = .ok chunks ∧
      chunk ∈ chunks ∧ chunk.name = name ∧ Durable s ds content chunk bs := by
  obtain ⟨before, batch, hbefore, hlast, rfl, after, hcontent⟩ := hf
  have hmem : batch ∈ batchesIn produced :=
    (hbefore.trans htaken).subset (List.mem_append_right _ (List.mem_singleton_self batch))
  obtain ⟨chunks, hlist⟩ := hp.listed hmem
  obtain ⟨done, left, batches, hdone, hun, hall⟩ := hp.batchesIn_eq hlist
  rw [hall] at htaken
  obtain ⟨passed, entry, behind, rfl, hsplit, hname⟩ :=
    hdone.split_of_last hun (hbefore.trans htaken) hlast
  obtain ⟨rest, hrest⟩ := hbefore
  rw [hsplit] at hrest hcontent
  have hbatches : batchesOf entry.1.name ds = entry.2 := by
    unfold batchesOf
    rw [← hrest]
    refine hdone.filter_name hun ?_
    rw [← hrest] at htaken
    simpa using htaken
  obtain ⟨bs, items, hsound, hperm, hbatched⟩ := (hdone.complete entry (by simp)).whole
  rw [hbatched.items_eq] at hperm
  rw [hname]
  refine ⟨chunks, entry.1, bs, hlist, by rw [hdone.chunks_eq hlist]; simp, rfl, hsound, ?_, ?_, ?_⟩
  · rw [hbatches]
    exact hperm
  · rw [hbatches, ← hcontent, Rows.ofBatches_append, Rows.text_append, ← List.append_assoc]
    exact Rows.holds_of_lines ho
  · rw [hbatches, Rows.length_ofBatches, hperm.length_eq, hsound.count]

variable [RowAppender Sink]

/-- A run that is about to begin adds rows to one file and lines to another one, neither of them a
chunk file. Either may refuse whatever is written to it. -/
structure Ready (settings : IngestSettings) (directory : Path) (log : StatusLog)
    (files : FileStore) (sink : Sink) (old oldLog : Bytes) : Prop where
  empty : RowAppender.pending sink = some []
  rows : files.Holds (RowAppender.place sink) old
  lines : files.Holds log.place oldLog
  apart : RowAppender.place sink ≠ log.place
  outside : Outside (.new settings directory (some log) files) (RowAppender.place sink) log

section Start

variable {settings : IngestSettings} {directory : Path} {files : FileStore} {sink : Sink}
  {events : List (Event Sink)}

/-- A line is refused only in a run that does not end well. The account is one of all lines. -/
theorem kept_of_trail (hready : Ready settings directory log files sink old oldLog)
    (h : Trail shown (start settings directory (some log) files sink) events r) :
    ∃ refused, Kept (RowAppender.place sink) log old oldLog (deliveries events) (lines events)
        refused r ∧
      Accounted (lines events ++ refused) r ∧
      (refused = [] ∨ BoundToFail (deliveries events) r) := by
  induction h with
  | start =>
    have hnone : Settled old [] [] old (some []) := ⟨balanced_nil old, rfl, .inl rfl⟩
    have hlines : files.Holds log.place (oldLog ++ []) := by
      rw [List.append_nil]
      exact hready.lines
    refine ⟨[], ⟨rfl, rfl, ⟨[], hlines, .nil⟩, old, hready.rows, ?_, by simp⟩,
      .fresh rfl rfl rfl rfl rfl, .inl rfl⟩
    show Poured old [] [] old (RowAppender.pending sink) .receiving
    rw [hready.empty]
    exact .receiving hnone
  | @step events t u move output htrail hs ih =>
    have ht := transition_of_shown hs
    obtain ⟨refused, hkept, haccount, hspared⟩ := ih
    rw [deliveries_append, deliveries_single, lines_append, lines_single]
    obtain ⟨more, hnext, hdue, hmore⟩ := hkept.step hready.apart (untold_of_trail htrail) ht
    refine ⟨refused ++ more, hnext, (haccount.step ht hdue).perm ?_, ?_⟩
    · rw [List.append_assoc, List.append_assoc, List.perm_append_left_iff, ← List.append_assoc,
        ← List.append_assoc]
      exact List.perm_append_comm.append_right more
    rcases hspared with rfl | hbound
    · exact hmore
    · exact .inr (hbound.step ht)

/-- At every moment, whatever line says that a chunk is done or begins to say so. -/
theorem exists_durable_of_filled (hready : Ready settings directory log files sink old oldLog)
    (ho : old = [] ∨ old.getLast? = some 10)
    (h : Trail shown (start settings directory (some log) files sink) events r)
    (hf : Filled old (batchesIn (deliveries events)) content name) :
    ∃ chunks chunk bs, ChunkEntry.list files directory settings.window = .ok chunks ∧
      chunk ∈ chunks ∧ chunk.name = name ∧
      Durable (.new settings directory (some log) files) (deliveries events) content chunk bs := by
  rcases follows_of_trail hready.outside h with ⟨rfl, -⟩ | ⟨hfollows, -⟩
  · obtain ⟨before, batch, hpre, -⟩ := hf
    simp at hpre
  · obtain ⟨produced, producer, hproduced, hpre⟩ := hfollows.taken
    have hdurable := durable_of_filled ho hf hproduced hpre
    exact hdurable

/-- When the run has ended well. -/
theorem exists_allDone_of_ok (hready : Ready settings directory log files sink old oldLog)
    (h : Trail shown (start settings directory (some log) files sink) events r)
    (hpoured : Poured old (batchesIn (deliveries events)) (namesOf .done (lines events)) content
      (RowAppender.pending r.sink) r.writer)
    (hp : settings.Possible) (hr : r.result? = some (.ok ())) :
    ∃ done, AllDone (.new settings directory (some log) files) (lines events) old content done := by
  have hw := result?_eq_some.mp hr
  have hlines := lines_of_ok h hr
  rcases follows_of_trail hready.outside h with ⟨-, rfl⟩ | ⟨hfollows, -⟩
  · cases hw
  · obtain ⟨hquiet, -⟩ := hfollows.quiet hw
    generalize deliveries events = ds at hquiet hpoured
    cases hquiet with
    | aborted _ hn => exact absurd hp hn
    | @complete done hdone =>
      rw [hw, Ingest.batchesIn_deliveriesOf] at hpoured
      cases hpoured with
      | finished hsettled =>
        have hnone : RowAppender.pending r.sink = some [] := by
          rcases hsettled.idle with hnone | ⟨batch, hbatch, hmore⟩
          · exact hnone
          · rw [hdone.last_of_getLast? hbatch] at hmore
            cases hmore
        have hlisted := hdone.listed
        rw [List.append_nil] at hlisted
        refine ⟨done, hlisted, ChunkEntry.pairwise_noOlder hlisted, hdone.whole, ?_, ?_⟩
        · rw [hlines, hsettled.names_eq, hdone.lastNames_eq, List.map_map]
          rfl
        · rw [← hsettled.rows [] hnone, List.append_nil]

end Start

section Rows

variable {settings : IngestSettings} {directory : Path} {files : FileStore} {sink : RowSink}
  {events : List (Event RowSink)} {r : IngestRun RowSink}

end Rows

/-! ## A run for one chunk, and one that is refused -/

/-- The sample files with an empty file for rows. -/
def rowFiles : FileStore := Ingest.sampleFiles.put ["rows"] (.file [])

/-- There is room for the rows and the line of one chunk, and for a part of the next ones. -/
def fullFiles : FileStore where
  workingPlace := []
  nodes :=
    [(["chunks"], .directory), (["rows"], .file [] [⟨1000, .noSpace⟩, ⟨7, .noSpace⟩]),
      (["status"], .file [] [⟨100, .noSpace⟩, ⟨5, .noSpace⟩]),
      (["chunks", "000000020-000000029.bin"],
        .file (Ingest.tableBytes [⟨.ofNat 2, 0, 1⟩] [⟨21, 7⟩])),
      (["chunks", "000000000-000000009.bin"],
        .file (Ingest.tableBytes [⟨.ofNat 1, 0, 1⟩] [⟨3, 0⟩]))]

def fullEntries : List ChunkEntry :=
  [Ingest.sampleEntry "000000020-000000029" ⟨20, 29⟩,
    Ingest.sampleEntry "000000000-000000009" ⟨0, 9⟩]

def rowMoves : List RunMove :=
  (List.replicate 30 [.ingest (.decode (.work 0)), .ingest .produce, .ingest (.decode .close),
    .write]).flatten

theorem list_rowFiles : ChunkEntry.list rowFiles ⟨"/chunks"⟩ Ingest.newestOnly.window =
    .ok (Ingest.sampleEntries.take 1) :=
  ChunkEntry.list_of_sorted (by decide +kernel) (by decide)

theorem list_fullFiles :
    ChunkEntry.list fullFiles ⟨"/chunks"⟩ Ingest.oneByOne.window = .ok fullEntries :=
  ChunkEntry.list_of_sorted (by decide +kernel) (by decide)

section Listed

variable (settings : IngestSettings) {files : FileStore} {chunks : List ChunkEntry}

theorem ready_of_list (h : ChunkEntry.list files ⟨"/chunks"⟩ settings.window = .ok chunks)
    (hrows : files.Holds ["rows"] []) (hlines : files.Holds ["status"] [])
    (houtside : ∀ chunk ∈ chunks, ¬ Written ["rows"] ⟨["status"]⟩ (files.target chunk.path)) :
    Ready settings ⟨"/chunks"⟩ ⟨["status"]⟩ files (⟨["rows"], [], none⟩ : RowSink) [] [] where
  empty := rfl
  rows := hrows
  lines := hlines
  apart := by decide
  outside := by
    intro listed hlisted
    have hsame := h.symm.trans hlisted
    rw [Except.ok.injEq] at hsame
    exact hsame ▸ houtside

/-- A run into the two files, behind the listing. -/
def rowRun (files : FileStore) (chunks : List ChunkEntry) :
    List (Event RowSink) × IngestRun RowSink :=
  Trail.follow shown
    ⟨(Ingest.new settings ⟨"/chunks"⟩ (some ⟨["status"]⟩) files).listedAs chunks,
      ⟨["rows"], [], none⟩, .receiving⟩ rowMoves

theorem trail_rowRun (h : ChunkEntry.list files ⟨"/chunks"⟩ settings.window = .ok chunks) :
    ∃ events, Trail shown (start settings ⟨"/chunks"⟩ (some ⟨["status"]⟩) files
        (⟨["rows"], [], none⟩ : RowSink)) events (rowRun settings files chunks).2 ∧
      lines events = lines (rowRun settings files chunks).1 := by
  obtain ⟨events, htrail, houtputs⟩ :=
    trail_of_list (some ⟨["status"]⟩) (⟨["rows"], [], none⟩ : RowSink) h rowMoves
  exact ⟨events, htrail, congrArg (List.filterMap RunOutput.line?) houtputs⟩

end Listed

/-- The chunk is done, and the run ends well. -/
theorem rowRun_rowFiles :
    let run := rowRun Ingest.newestOnly rowFiles (Ingest.sampleEntries.take 1)
    lines run.1 = [⟨.done, "000000020-000000029"⟩] ∧ run.2.result? = some (.ok ()) := by
  have hrun : let run := rowRun Ingest.newestOnly rowFiles (Ingest.sampleEntries.take 1)
      lines run.1 = [⟨.done, "000000020-000000029"⟩] ∧ run.2.result?.any Except.isOk = true := by
    decide +kernel
  refine ⟨hrun.1, ?_⟩
  obtain ⟨result, hreturned, hwell⟩ := (Option.any_eq_true _ _).mp hrun.2
  cases result with
  | ok _ => exact hreturned
  | error f => cases hwell

/-- The first chunk is done. The rows of the second are cut off, and so is its line. -/
theorem rowRun_fullFiles :
    let run := rowRun Ingest.oneByOne fullFiles fullEntries
    lines run.1 = [⟨.done, "000000020-000000029"⟩] ∧
      (∃ f, run.2.result? = some (.error f)) ∧
      run.2.ingest.files.Holds ["status"]
        (Utf8.encode "done\t000000020-000000029\nappea".toList) := by
  have hrun : let run := rowRun Ingest.oneByOne fullFiles fullEntries
      lines run.1 = [⟨.done, "000000020-000000029"⟩] ∧
        run.2.result?.any (fun result => !result.isOk) = true ∧
        run.2.ingest.files.Holds ["status"]
          (Utf8.encode "done\t000000020-000000029\nappea".toList) := by
    decide +kernel
  obtain ⟨hlines, hresult, hlog⟩ := hrun
  refine ⟨hlines, ?_, hlog⟩
  obtain ⟨result, hreturned, hfailed⟩ := (Option.any_eq_true _ _).mp hresult
  cases result with
  | ok _ => cases hfailed
  | error f => exact ⟨f, hreturned⟩

end IngestRun

end AppearanceIndex
