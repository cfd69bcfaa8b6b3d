import AppearanceIndex.Ingest.Sink
import AppearanceIndex.Proofs.Files.Agree
import AppearanceIndex.Proofs.Text.OneLine

/-!
# Rows in a file

A `RowAppender` is a sink that adds the rows of the batches to the end of one file, in order, at the
latest when a flush of it succeeds. A `RowSink` is one. The file may refuse any write and keep a
part of it; the sink knows of that before a flush succeeds. No row holds a line feed, so what comes
into the file by then are whole lines (`Rows.Holds`).
-/

namespace AppearanceIndex

/-! ## Rows -/

namespace Rows

/-- The rows of batches, each for one appearance. -/
def ofBatches (batches : List AppearanceBatch) : List Bytes :=
  batches.flatMap fun batch => batch.appearances.map fun d => Utf8.encode (d.rowText batch.range)

def text (rows : List Bytes) : Bytes := rows.flatMap (· ++ [10])

/-- A text holds the rows as lines in one piece. -/
def Holds (content : Bytes) (rows : List Bytes) : Prop :=
  ∃ before after, content = before ++ text rows ++ after ∧
    (before = [] ∨ before.getLast? = some 10) ∧ ∀ row ∈ rows, 10 ∉ row

@[simp] theorem ofBatches_append (batches more : List AppearanceBatch) :
    ofBatches (batches ++ more) = ofBatches batches ++ ofBatches more := List.flatMap_append

@[simp] theorem text_append (rows more : List Bytes) :
    text (rows ++ more) = text rows ++ text more := List.flatMap_append

theorem length_ofBatches (batches : List AppearanceBatch) :
    (ofBatches batches).length = (batches.flatMap (·.appearances)).length := by
  simp [ofBatches, List.length_flatMap]

theorem not_mem_of_mem_ofBatches {batches : List AppearanceBatch} {row : Bytes}
    (h : row ∈ ofBatches batches) : 10 ∉ row := by
  obtain ⟨batch, -, hrow⟩ := List.mem_flatMap.mp h
  obtain ⟨d, -, rfl⟩ := List.mem_map.mp hrow
  exact Utf8.not_mem_encode (d.newline_not_mem_rowText batch.range)

/-- What a batch is written as. -/
theorem encode_rows (batch : AppearanceBatch) :
    Utf8.encode (RowSink.rows batch) = text (ofBatches [batch]) := by
  have hline : Utf8.encode ['\n'] = [10] := by decide
  unfold RowSink.rows ofBatches text
  rw [List.flatMap_singleton, List.flatMap_map]
  induction batch.appearances with
  | nil => rfl
  | cons d ds ih => rw [List.flatMap_cons, List.flatMap_cons, Utf8.encode_append, ih,
      Utf8.encode_append, hline]

theorem text_ends (rows : List Bytes) : text rows = [] ∨ (text rows).getLast? = some 10 := by
  rcases List.eq_nil_or_concat rows with rfl | ⟨init, last, rfl⟩
  · exact .inl rfl
  · right
    simp [text]

/-- Lines behind lines begin a line. -/
theorem holds_of_lines {old after : Bytes} {before batches : List AppearanceBatch}
    (ho : old = [] ∨ old.getLast? = some 10) :
    Holds (old ++ text (ofBatches before) ++ text (ofBatches batches) ++ after)
      (ofBatches batches) := by
  refine ⟨_, after, rfl, ?_, fun row hrow => not_mem_of_mem_ofBatches hrow⟩
  rcases text_ends (ofBatches before) with hnil | hlast
  · rw [hnil, List.append_nil]
    exact ho
  · right
    rw [List.getLast?_append, hlast]
    rfl

end Rows

/-! ## Sinks that add rows -/

/-- What a sink has written in a call went to the end of its file. If the call succeeds and no write
has failed unnoticed by then, none had before, and what was written and what is pending now are
together what was pending before and the bytes that the sink was given. -/
def Pours {Sink ε : Type} (place : Sink → Place) (pending : Sink → Option Bytes) (sink : Sink)
    (files : FileStore) (bs : Bytes) (outcome : Except ε Unit × Sink × FileStore) : Prop :=
  ∃ written, files.Adds outcome.2.2 (place sink) written ∧ place outcome.2.1 = place sink ∧
    (outcome.1 = .ok () → ∀ rest, pending outcome.2.1 = some rest →
      ∃ due, pending sink = some due ∧ written ++ rest = due ++ bs)

namespace Pours

variable {Sink ε : Type} {place : Sink → Place} {pending : Sink → Option Bytes} {sink next : Sink}
  {files after : FileStore} {bs more : Bytes}

/-- Nothing is done. -/
theorem nothing (sink : Sink) (files : FileStore) :
    Pours place pending sink files [] ((.ok () : Except ε Unit), sink, files) :=
  ⟨[], .refl _ _, rfl, fun _ rest hrest => ⟨rest, hrest, by simp⟩⟩

/-- Two calls, of which the first succeeds. -/
theorem trans {outcome : Except ε Unit × Sink × FileStore}
    (h : Pours place pending sink files bs ((.ok () : Except ε Unit), next, after))
    (h' : Pours place pending next after more outcome) :
    Pours place pending sink files (bs ++ more) outcome := by
  obtain ⟨first, hfirst, hplace, hok⟩ := h
  obtain ⟨second, hsecond, hplace', hok'⟩ := h'
  rw [show place next = place sink from hplace] at hsecond hplace'
  refine ⟨_, hfirst.trans hsecond, hplace', fun hout rest hrest => ?_⟩
  obtain ⟨between, hbetween, hsum'⟩ := hok' hout rest hrest
  obtain ⟨due, hdue, hsum⟩ := hok rfl between hbetween
  have hsum : first ++ between = due ++ bs := hsum
  exact ⟨due, hdue, by rw [List.append_assoc, hsum', ← List.append_assoc, hsum, List.append_assoc]⟩

/-- A call that fails may have been given anything. -/
theorem of_error {e : ε} (h : Pours place pending sink files bs (.error e, next, after))
    (more : Bytes) : Pours place pending sink files more (.error e, next, after) := by
  obtain ⟨written, hadds, hplace, -⟩ := h
  exact ⟨written, hadds, hplace, fun hout => by cases hout⟩

end Pours

theorem Pours.ofIo {Sink : Type} {place : Sink → Place} {pending : Sink → Option Bytes}
    {sink : Sink} {files : FileStore} {bs : Bytes}
    {outcome : Except IoError Unit × Sink × FileStore}
    (h : Pours place pending sink files bs outcome) (activity : Activity) :
    Pours place pending sink files bs (activity.ofIo outcome.1, outcome.2) := by
  obtain ⟨written, hadds, hplace, hok⟩ := h
  exact ⟨written, hadds, hplace, fun h => hok (Activity.eq_of_ofIo h)⟩

/-- A sink that adds rows to a file. A flush that succeeds leaves nothing pending. -/
class RowAppender (Sink : Type) extends AppearanceSink Sink where
  place : Sink → Place
  /-- What is still to be written; none if a write has failed and nobody was told. -/
  pending : Sink → Option Bytes
  insert_pours : ∀ sink files batch,
    Pours place pending sink files (Utf8.encode (RowSink.rows batch)) (insert sink files batch)
  flush_pours : ∀ sink files, Pours place pending sink files [] (flush sink files)
  pending_flush : ∀ sink files, (flush sink files).1 = .ok () →
    pending (flush sink files).2.1 = some []

namespace RowAppender

variable {Sink : Type} [RowAppender Sink] {sink : Sink} {files : FileStore}
  {outcome : Except Failure Unit × Sink × FileStore}

theorem pours_of_insert {batch : AppearanceBatch}
    (h : AppearanceSink.insert sink files batch = outcome) :
    Pours place pending sink files (Rows.text (Rows.ofBatches [batch])) outcome := by
  rw [← h, ← Rows.encode_rows]
  exact insert_pours sink files batch

theorem pours_of_flush (h : AppearanceSink.flush sink files = outcome) :
    Pours place pending sink files [] outcome := h ▸ flush_pours sink files

end RowAppender

namespace RowSink

variable {s : RowSink} {files : FileStore} {bs rest : Bytes}

/-- The buffer, unless a write has failed and nobody was told. -/
def pending (s : RowSink) : Option Bytes :=
  match s.late with
  | none => some s.buffer
  | some _ => none

theorem pending_eq_some : s.pending = some rest ↔ s.late = none ∧ s.buffer = rest := by
  unfold pending
  cases s.late <;> simp

/-- A write bypasses the buffer. All of it is in the file if no failure is to be told then. -/
theorem adds_writeOut (s : RowSink) (files : FileStore) (bs : Bytes) :
    ∃ written, files.Adds (s.writeOut files bs).2.2 s.place written ∧
      (s.writeOut files bs).2.1.place = s.place ∧
      (s.writeOut files bs).2.1.buffer = s.buffer ∧
      ((s.writeOut files bs).1 = .ok () → (s.writeOut files bs).2.1.late = none →
        s.late = none ∧ written = bs) := by
  unfold writeOut
  cases hlate : s.late with
  | some e => exact ⟨[], .refl _ _, rfl, rfl, fun h => nomatch h⟩
  | none =>
    obtain ⟨kept, hadds, -, hall⟩ := files.adds_append s.place bs
    cases happend : files.append s.place bs with
    | mk result after =>
      rw [happend] at hadds hall
      cases result with
      | ok _ => exact ⟨kept, hadds, rfl, rfl, fun _ _ => ⟨rfl, hall.mp rfl⟩⟩
      | error e => exact ⟨kept, hadds, rfl, rfl, fun _ h => nomatch h⟩

theorem pours_writeOut (h : s.buffer = []) (files : FileStore) (bs : Bytes) :
    Pours place pending s files bs (s.writeOut files bs) := by
  obtain ⟨written, hadds, hplace, hbuffer, hok⟩ := s.adds_writeOut files bs
  refine ⟨written, hadds, hplace, fun hout rest hrest => ?_⟩
  obtain ⟨hlate, hnone⟩ := pending_eq_some.mp hrest
  obtain ⟨hbefore, rfl⟩ := hok hout hlate
  exact ⟨[], pending_eq_some.mpr ⟨hbefore, h⟩, by rw [← hnone, hbuffer, h, List.append_nil]; rfl⟩

theorem pours_emptyBuffer (s : RowSink) (files : FileStore) :
    Pours place pending s files [] (s.emptyBuffer files) ∧
      ((s.emptyBuffer files).1 = .ok () → (s.emptyBuffer files).2.1.buffer = []) := by
  unfold emptyBuffer
  split
  · next hempty => exact ⟨.nothing s files, fun _ => hempty⟩
  · obtain ⟨written, hadds, hplace, -, hok⟩ := s.adds_writeOut files s.buffer
    cases hout : s.writeOut files s.buffer with
    | mk result outcome =>
      rw [hout] at hadds hplace hok
      cases result with
      | ok _ =>
        refine ⟨⟨written, hadds, hplace, fun _ rest hrest => ?_⟩, fun _ => rfl⟩
        obtain ⟨hlate, rfl⟩ := pending_eq_some.mp hrest
        obtain ⟨hbefore, rfl⟩ := hok rfl hlate
        exact ⟨s.buffer, pending_eq_some.mpr ⟨hbefore, rfl⟩, rfl⟩
      | error e => exact ⟨⟨written, hadds, hplace, fun h => nomatch h⟩, fun h => nomatch h⟩

theorem pours_makeRoom (s : RowSink) (files : FileStore) (count : Nat) :
    Pours place pending s files [] (s.makeRoom files count) ∧
      ((s.makeRoom files count).1 = .ok () → bufferBytes ≤ count →
        (s.makeRoom files count).2.1.buffer = []) := by
  unfold makeRoom
  split
  · exact (s.pours_emptyBuffer files).imp_right fun h hok _ => h hok
  · next hfits =>
    refine ⟨.nothing s files, fun _ hcount => ?_⟩
    show s.buffer = []
    exact List.length_eq_zero_iff.mp (by omega)

/-- Bytes that fit are pending behind the buffer. -/
theorem pours_gather (s : RowSink) (files : FileStore) (bs : Bytes) :
    Pours place pending s files bs
      ((.ok () : Except IoError Unit), { s with buffer := s.buffer ++ bs }, files) := by
  refine ⟨[], .refl _ _, rfl, fun _ rest hrest => ?_⟩
  obtain ⟨hlate, rfl⟩ := pending_eq_some.mp hrest
  exact ⟨s.buffer, pending_eq_some.mpr ⟨hlate, rfl⟩, rfl⟩

theorem pours_writeAll (s : RowSink) (files : FileStore) (bs : Bytes) :
    Pours place pending s files bs (s.writeAll files bs) := by
  fun_induction writeAll s files bs with
  | case1 s files => exact .nothing s files
  | case2 s files bs hne e t after hroom =>
    have hmade := (s.pours_makeRoom files bs.length).1
    rw [hroom] at hmade
    exact hmade.of_error bs
  | case3 s files bs hne t after hroom hshort =>
    have hmade := (s.pours_makeRoom files bs.length).1
    rw [hroom] at hmade
    exact hmade.trans (t.pours_gather after bs)
  | case4 s files bs hne t after hroom hlong e u later hout =>
    obtain ⟨hmade, hempty⟩ := s.pours_makeRoom files bs.length
    rw [hroom] at hmade hempty
    have hwritten := pours_writeOut (hempty rfl (Nat.not_lt.mp hlong)) after (bs.take writeBytes)
    rw [hout] at hwritten
    exact hmade.trans (hwritten.of_error bs)
  | case5 s files bs hne t after hroom hlong u later hout ih =>
    -- the buffer is empty when bytes bypass it
    obtain ⟨hmade, hempty⟩ := s.pours_makeRoom files bs.length
    rw [hroom] at hmade hempty
    have hwritten := pours_writeOut (hempty rfl (Nat.not_lt.mp hlong)) after (bs.take writeBytes)
    rw [hout] at hwritten
    have hrest := hwritten.trans ih
    rw [List.take_append_drop] at hrest
    exact hmade.trans hrest

theorem pours_sync (s : RowSink) (files : FileStore) :
    Pours place pending s files [] (s.sync files) ∧
      ((s.sync files).1 = .ok () → (s.sync files).2.1.pending = some []) := by
  obtain ⟨hpours, hempty⟩ := s.pours_emptyBuffer files
  unfold sync
  cases hout : s.emptyBuffer files with
  | mk result outcome =>
    obtain ⟨t, after⟩ := outcome
    rw [hout] at hpours hempty
    cases result with
    | error e => exact ⟨hpours, fun h => by cases h⟩
    | ok _ =>
      simp only
      cases hlate : t.late with
      | some e =>
        obtain ⟨written, hadds, hplace, -⟩ := hpours
        exact ⟨⟨written, hadds, hplace, fun h => by cases h⟩, fun h => by cases h⟩
      | none => exact ⟨hpours, fun _ => pending_eq_some.mpr ⟨hlate, hempty rfl⟩⟩

instance : RowAppender RowSink where
  place := place
  pending := pending
  insert_pours s files _ := (s.pours_writeAll files _).ofIo .insertAppearances
  flush_pours s files := (s.pours_sync files).1.ofIo .flushSink
  pending_flush s files h := (s.pours_sync files).2 (Activity.eq_of_ofIo h)

end RowSink

end AppearanceIndex
