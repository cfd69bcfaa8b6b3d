import Mathlib.Data.List.Forall2
import AppearanceIndex.Proofs.Json.Row
import AppearanceIndex.Proofs.Run.Rows

/-!
# The file of one sink

A `RowSink` that is open on a regular file, one that refuses no writes, takes every batch and every
flush (`RowSink.Ready`).
After the flush the file holds what it held before and then a line for each appearance, in the order
in which they were inserted, and each line reads back as its appearance and the bounds of its range.
-/

namespace AppearanceIndex

/-! ## Opening -/

/-- A path leads to a regular file of a content, or to nothing where a file can be made, which
begins empty. -/
structure FileStore.Opens (files : FileStore) (path : Path) (content : Bytes) : Prop where
  notDirectory : meansDirectory path = false
  located : ∃ place, files.locate path = .ok place ∧
    (files.node? place = some (.file content) ∨ files.node? place = none ∧ content = [])

theorem FileStore.Opens.openWrite {files : FileStore} {path : Path} {content : Bytes}
    (h : files.Opens path content) : ∃ place opened,
      files.openWrite path = .ok (place, opened) ∧ opened.locate path = .ok place ∧
      opened.node? place = some (.file content) := by
  obtain ⟨place, hlocate, hfile | ⟨hnone, rfl⟩⟩ := h.located
  · refine ⟨place, files, ?_, hlocate, hfile⟩
    simp [FileStore.openWrite, hlocate, h.notDirectory, hfile, bind, Except.bind]
  · have hne : place ≠ [] := by
      rintro rfl
      cases hnone
    have hextends : files.Extends (files.put place (.file [])) := by
      refine ⟨workingPlace_put _ _ _, fun other hother => ?_⟩
      rw [node?_put hne, if_neg, hother]
      rintro rfl
      rw [hnone] at hother
      cases hother
    refine ⟨place, files.put place (.file []), ?_, hextends.locate hlocate, ?_⟩
    · simp [FileStore.openWrite, hlocate, h.notDirectory, hnone, bind, Except.bind]
    · rw [node?_put hne, if_pos rfl]

namespace RowSink

/-! ## Calls that succeed -/

/-- No error is waiting, and the file is a regular one. -/
structure Ready (s : RowSink) (files : FileStore) : Prop where
  late : s.late = none
  file : ∃ content, files.node? s.place = some (.file content)

/-- A call succeeds and leaves the sink ready. -/
def Succeeds {ε : Type} (outcome : Except ε Unit × RowSink × FileStore) : Prop :=
  ∃ next after, outcome = (.ok (), next, after) ∧ Ready next after

theorem Succeeds.ofIo {outcome : Except IoError Unit × RowSink × FileStore} (h : Succeeds outcome)
    (activity : Activity) : Succeeds (activity.ofIo outcome.1, outcome.2) := by
  obtain ⟨next, after, rfl, hready⟩ := h
  exact ⟨next, after, rfl, hready⟩

theorem Succeeds.not_error {ε : Type} {e : ε} {next : RowSink} {after : FileStore} :
    ¬ Succeeds (.error e, next, after) := by
  rintro ⟨_, _, heq, -⟩
  cases heq

theorem Succeeds.ready {ε : Type} {next : RowSink} {after : FileStore}
    (h : Succeeds ((.ok () : Except ε Unit), next, after)) : Ready next after := by
  obtain ⟨_, _, heq, hready⟩ := h
  cases heq
  exact hready

namespace Ready

variable {s : RowSink} {files : FileStore}

theorem writeOut (h : Ready s files) (bs : Bytes) : Succeeds (s.writeOut files bs) := by
  obtain ⟨content, hfile⟩ := h.file
  have hne := FileStore.ne_nil_of_file hfile
  unfold RowSink.writeOut
  rw [h.late, FileStore.append_of_file hfile]
  exact ⟨_, _, rfl, h.late, _, by rw [FileStore.node?_put hne, if_pos rfl]⟩

theorem emptyBuffer (h : Ready s files) : Succeeds (s.emptyBuffer files) := by
  unfold RowSink.emptyBuffer
  split
  · exact ⟨_, _, rfl, h⟩
  · obtain ⟨next, after, hout, hready⟩ := h.writeOut s.buffer
    rw [hout]
    exact ⟨_, _, rfl, hready.late, hready.file⟩

theorem makeRoom (h : Ready s files) (count : Nat) : Succeeds (s.makeRoom files count) := by
  unfold RowSink.makeRoom
  split
  · exact h.emptyBuffer
  · exact ⟨_, _, rfl, h⟩

theorem writeAll (h : Ready s files) (bs : Bytes) : Succeeds (s.writeAll files bs) := by
  fun_induction RowSink.writeAll s files bs with
  | case1 s files => exact ⟨_, _, rfl, h⟩
  | case2 s files bs hne e t after hroom =>
    exact absurd (hroom ▸ h.makeRoom bs.length) Succeeds.not_error
  | case3 s files bs hne t after hroom hshort =>
    have hready := (hroom ▸ h.makeRoom bs.length).ready
    exact ⟨_, _, rfl, hready.late, hready.file⟩
  | case4 s files bs hne t after hroom hlong e u later hout =>
    have hready := (hroom ▸ h.makeRoom bs.length).ready
    exact absurd (hout ▸ hready.writeOut (bs.take writeBytes)) Succeeds.not_error
  | case5 s files bs hne t after hroom hlong u later hout ih =>
    have hready := (hroom ▸ h.makeRoom bs.length).ready
    exact ih (hout ▸ hready.writeOut (bs.take writeBytes)).ready

theorem sync (h : Ready s files) : Succeeds (s.sync files) := by
  obtain ⟨next, after, hout, hready⟩ := h.emptyBuffer
  unfold RowSink.sync
  rw [hout]
  simp only [hready.late]
  exact ⟨_, _, rfl, hready⟩

theorem insert (h : Ready s files) (batch : AppearanceBatch) : Succeeds (s.insert files batch) :=
  (h.writeAll (Utf8.encode (rows batch))).ofIo .insertAppearances

theorem flush (h : Ready s files) : Succeeds (s.flush files) := h.sync.ofIo .flushSink

end Ready

end RowSink

/-! ## Batches in a row -/

/-- Inserts batches one after another, as long as the sink takes them. -/
def AppearanceSink.insertAll {Sink : Type} [AppearanceSink Sink] (sink : Sink) (files : FileStore) :
    List AppearanceBatch → Except Failure Unit × Sink × FileStore
  | [] => (.ok (), sink, files)
  | batch :: batches =>
    match insert sink files batch with
    | (.ok (), sink, files) => insertAll sink files batches
    | (.error f, sink, files) => (.error f, sink, files)

/-- Batches in a row bring in their rows in a row. -/
theorem RowAppender.insertAll_pours {Sink : Type} [RowAppender Sink] (sink : Sink)
    (files : FileStore) (batches : List AppearanceBatch) :
    Pours place pending sink files (Rows.text (Rows.ofBatches batches))
      (AppearanceSink.insertAll sink files batches) := by
  induction batches generalizing sink files with
  | nil => exact .nothing sink files
  | cons batch batches ih =>
    have hrows : Rows.text (Rows.ofBatches (batch :: batches)) =
        Rows.text (Rows.ofBatches [batch]) ++ Rows.text (Rows.ofBatches batches) := by
      rw [← Rows.text_append, ← Rows.ofBatches_append, List.singleton_append]
    unfold AppearanceSink.insertAll
    split
    · next next after hinsert =>
      rw [hrows]
      exact (pours_of_insert hinsert).trans (ih next after)
    · next f next after hinsert => exact (pours_of_insert hinsert).of_error _

/-- Batches that were inserted and flushed are in the file, and nothing else is new there. -/
theorem RowAppender.adds_of_flush {Sink : Type} [RowAppender Sink] {sink filled flushed : Sink}
    {files inserted after : FileStore} {batches : List AppearanceBatch}
    (hempty : pending sink = some [])
    (hinsert : AppearanceSink.insertAll sink files batches = (.ok (), filled, inserted))
    (hflush : AppearanceSink.flush filled inserted = (.ok (), flushed, after)) :
    files.Adds after (place sink) (Rows.text (Rows.ofBatches batches)) := by
  have hpours := insertAll_pours sink files batches
  rw [hinsert] at hpours
  obtain ⟨written, hadds, -, hsum⟩ := hpours.trans (pours_of_flush hflush)
  have hnone : pending flushed = some [] := by
    have hpending := pending_flush filled inserted
    rw [hflush] at hpending
    exact hpending rfl
  -- nothing is pending at the end, nor was at the beginning
  obtain ⟨due, hdue, hall⟩ := hsum rfl [] hnone
  rw [hempty] at hdue
  cases hdue
  rw [List.append_nil, List.append_nil, List.nil_append] at hall
  exact hall ▸ hadds

theorem RowSink.Ready.insertAll {s : RowSink} {files : FileStore} (h : s.Ready files)
    (batches : List AppearanceBatch) : Succeeds (AppearanceSink.insertAll s files batches) := by
  induction batches generalizing s files with
  | nil => exact ⟨_, _, rfl, h⟩
  | cons batch batches ih =>
    obtain ⟨next, after, hinsert, hready⟩ : Succeeds (AppearanceSink.insert s files batch) :=
      h.insert batch
    rw [AppearanceSink.insertAll, hinsert]
    exact ih hready

/-! ## The lines of the file -/

namespace Rows

/-- The appearances of batches with their ranges, in order. -/
def entries (batches : List AppearanceBatch) : List (BlockRange × DecodedAppearance) :=
  batches.flatMap fun batch => batch.appearances.map fun d => (batch.range, d)

theorem ofBatches_eq_map (batches : List AppearanceBatch) :
    ofBatches batches =
      (entries batches).map fun entry => Utf8.encode (entry.2.rowText entry.1) := by
  simp [ofBatches, entries, List.map_flatMap, Function.comp_def]

/-- Each row is one line, and reads back as its appearance and the bounds of its range. -/
theorem forall₂_ofBatches (batches : List AppearanceBatch) :
    List.Forall₂ (fun line entry => 10 ∉ line ∧ ReadsAs line entry) (ofBatches batches)
      (entries batches) := by
  rw [ofBatches_eq_map, List.forall₂_map_left_iff, List.forall₂_same]
  intro entry hentry
  refine ⟨?_, readsAs_rowText entry.1 entry.2⟩
  exact Utf8.not_mem_encode (entry.2.newline_not_mem_rowText entry.1)

end Rows

/-- Batches that are inserted into one sink on a file and flushed. All calls succeed, and the file
is what it was and then a line for each appearance, in order, that holds no line feed and reads back
as the appearance and as the bounds of its range. -/
theorem RowSink.file_of_batches {files : FileStore} {path : Path} {old : Bytes}
    (h : files.Opens path old) (batches : List AppearanceBatch) :
    ∃ sink opened filled inserted flushed after,
      openAt files path = .ok (sink, opened) ∧
      AppearanceSink.insertAll sink opened batches = (.ok (), filled, inserted) ∧
      filled.flush inserted = (.ok (), flushed, after) ∧
      ∃ lines, after.contentOf path = .ok (old ++ Rows.text lines) ∧
        List.Forall₂ (fun line entry => 10 ∉ line ∧ Rows.ReadsAs line entry) lines
          (Rows.entries batches) := by
  obtain ⟨place, opened, hopen, hlocate, hfile⟩ := h.openWrite
  have hsink : openAt files path = .ok (⟨place, [], none⟩, opened) := by
    rw [openAt, hopen]
    rfl
  have hready : Ready ⟨place, [], none⟩ opened := ⟨rfl, old, hfile⟩
  obtain ⟨filled, inserted, hinsert, hfilled⟩ := hready.insertAll batches
  obtain ⟨flushed, after, hflush, -⟩ := hfilled.flush
  have hadds : opened.Adds after place (Rows.text (Rows.ofBatches batches)) :=
    RowAppender.adds_of_flush rfl hinsert hflush
  have hagrees : FileStore.Agrees (· = place) opened after := hadds.agrees rfl
  have hlocate' : after.locate path = .ok place := (hagrees.locate_eq path).trans hlocate
  exact ⟨_, _, _, _, _, _, hsink, hinsert, hflush, Rows.ofBatches batches,
    FileStore.contentOf_of_openRead
      (FileStore.openRead_of_file hlocate' (hadds.plain hfile) h.notDirectory),
    Rows.forall₂_ofBatches batches⟩

/-- An appearance, a batch without any, and an appearance of another chunk behind a line. -/
theorem RowSink.file_of_three_batches :
    let files : FileStore := ⟨[], [(["rows"], .file [120, 10])], by simp⟩
    let batches : List AppearanceBatch :=
      [⟨⟨0, 99⟩, "a", [⟨.ofIndex 1, ⟨5, 2⟩⟩], false⟩, ⟨⟨0, 99⟩, "a", [], true⟩,
        ⟨⟨100, 149⟩, "b", [⟨.ofIndex 2, ⟨120, 0⟩⟩], true⟩]
    files.Opens ⟨"rows"⟩ [120, 10] ∧ ∃ sink opened filled inserted flushed after,
      openAt files ⟨"rows"⟩ = .ok (sink, opened) ∧
      AppearanceSink.insertAll sink opened batches = (.ok (), filled, inserted) ∧
      filled.flush inserted = (.ok (), flushed, after) ∧
      ∃ line line', after.contentOf ⟨"rows"⟩ = .ok ([120, 10] ++ line ++ [10] ++ line' ++ [10]) ∧
        Rows.ReadsAs line (⟨0, 99⟩, ⟨.ofIndex 1, ⟨5, 2⟩⟩) ∧
        Rows.ReadsAs line' (⟨100, 149⟩, ⟨.ofIndex 2, ⟨120, 0⟩⟩) := by
  intro files batches
  have hopens : files.Opens ⟨"rows"⟩ [120, 10] :=
    ⟨by decide +kernel, ["rows"], by rfl, .inl rfl⟩
  obtain ⟨sink, opened, filled, inserted, flushed, after, hopen, hinsert, hflush, lines, hcontent,
    hlines⟩ := RowSink.file_of_batches hopens batches
  refine ⟨hopens, sink, opened, filled, inserted, flushed, after, hopen, hinsert, hflush, ?_⟩
  obtain _ | ⟨⟨-, hline⟩, _ | ⟨⟨-, hline'⟩, _ | _⟩⟩ := hlines
  exact ⟨_, _, by simpa [Rows.text] using hcontent, hline, hline'⟩

end AppearanceIndex
