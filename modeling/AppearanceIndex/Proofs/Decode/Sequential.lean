import AppearanceIndex.Proofs.Chunk.Lookup
import AppearanceIndex.Proofs.Decode.Undisturbed
import AppearanceIndex.Proofs.Decode.Whole

/-!
# Decoding and reading record by record

`ChunkFile.decodedAt` looks up one record of the address table and reads its span; going through
all positions in turn is the plain way to read a chunk (`ChunkFile.Reads`). A decode does the same
work with other reads: each worker loads the records of its shard at once and checks every span
itself. `DecodeStream.Realizes` says that this makes no difference: with any number of workers and
any output, the decode gives what the plain way gives, in the same order within and across shards,
and it fails exactly if the plain way meets a span that does not fit.
-/

namespace AppearanceIndex

/-! ## The plain way -/

/-- What a record stands for, or the error of a span that lies outside the table. -/
def Chunk.readRecord (bs : Bytes) (range : BlockRange) (record : AddressRecord) :
    Except Error (List DecodedAppearance) :=
  if record.Fits (header bs) then .ok (decodedSpan bs record)
  else .error (record.spanError (header bs) range)

namespace ChunkFile

/-- The appearances of the record at a position, each with the address of the record. -/
def decodedAt (chunk : ChunkFile) (position : Nat) : Reading (List DecodedAppearance) := do
  let record ← chunk.addressRecordAt position
  let apps ← chunk.readAppearances record
  return apps.map (DecodedAppearance.mk record.address)

/-- These are the results of all positions, wherever the cursor is. -/
structure Reads (chunk : ChunkFile) (results : List (Except Error (List DecodedAppearance))) :
    Prop where
  length : results.length = chunk.header.addressCount.toNat
  gives : ∀ position result, results[position]? = some result →
    (chunk.decodedAt position).Gives result

variable {bs : Bytes} {range : BlockRange}

theorem decodedAt_ofBytes (h : Chunk.Admitted bs) {position : Nat} {record : AddressRecord}
    (hp : (Chunk.addressTable bs)[position]? = some record) :
    ((ofBytes bs range).decodedAt position).Gives (Chunk.readRecord bs range record) := by
  unfold decodedAt Chunk.readRecord
  refine (addressRecordAt_ofBytes h hp).bind ?_
  split
  · next hf => exact (readAppearances_ofBytes h hf).bind (Reading.gives_pure _)
  · next hf => exact (readAppearances_of_not_fits hf).bind_error

/-- Reading an admitted chunk position by position is reading the records of its table. -/
theorem reads_ofBytes (h : Chunk.Admitted bs) (range : BlockRange) :
    (ofBytes bs range).Reads ((Chunk.addressTable bs).map (Chunk.readRecord bs range)) where
  length := by rw [List.length_map, h.length_addressTable]; rfl
  gives := by
    intro position result hresult
    rw [List.getElem?_map, Option.map_eq_some_iff] at hresult
    obtain ⟨record, hrecord, rfl⟩ := hresult
    exact decodedAt_ofBytes h hrecord

end ChunkFile

namespace Chunk

variable {bs : Bytes} {range : BlockRange}

/-- All records are read if their spans all fit, and give what the chunk decodes to. -/
theorem readRecord_eq_ok {groups : List (List DecodedAppearance)}
    (h : (addressTable bs).map (readRecord bs range) = groups.map .ok) :
    (∀ record ∈ addressTable bs, record.Fits (header bs)) ∧ groups.flatten = decoded bs := by
  have hfits : ∀ record ∈ addressTable bs, record.Fits (header bs) := by
    intro record hmem
    have hresult : readRecord bs range record ∈ groups.map .ok :=
      h ▸ List.mem_map_of_mem hmem
    obtain ⟨group, -, hgroup⟩ := List.mem_map.mp hresult
    refine Classical.byContradiction fun hn => ?_
    unfold readRecord at hgroup
    rw [if_neg hn] at hgroup
    cases hgroup
  have hgroups : (addressTable bs).map (readRecord bs range) =
      ((addressTable bs).map (decodedSpan bs)).map .ok := by
    rw [List.map_map]
    exact List.map_congr_left fun record hmem => if_pos (hfits record hmem)
  refine ⟨hfits, ?_⟩
  have hsame : groups = (addressTable bs).map (decodedSpan bs) :=
    (List.map_inj_right fun _ _ heq => Except.ok.inj heq).mp (h.symm.trans hgroups)
  rw [hsame, decoded, List.flatMap_def]

/-- A record that cannot be read is one whose span does not fit. -/
theorem readRecord_eq_error {e : Error} :
    .error e ∈ (addressTable bs).map (readRecord bs range) ↔
      ∃ record ∈ addressTable bs, ¬ record.Fits (header bs) ∧
        e = record.spanError (header bs) range := by
  rw [List.mem_map]
  refine exists_congr fun record => and_congr_right fun _ => ?_
  unfold readRecord
  split
  · next hf => simp [hf]
  · next hf => simp [hf, eq_comm]

end Chunk

/-! ## Failures of shards -/

namespace OpenChunk

variable {bs : Bytes} {range : BlockRange} {shard : Shard} {records : List AddressRecord}

/-- Decoding records fails at a span that does not fit. -/
theorem decodeRecords_eq_some (h : Chunk.Admitted bs) {f : Failure}
    (hf : ((ofBytes bs range).decodeRecords shard records).2 = some f) :
    ∃ record ∈ records, ¬ record.Fits (Chunk.header bs) ∧
      f.indexError? = some (record.spanError (Chunk.header bs) range) := by
  induction records with
  | nil => cases hf
  | cons record records ih =>
    unfold decodeRecords at hf
    by_cases hfits : record.Fits (Chunk.header bs)
    · simp only [readSpan_ofBytes h shard hfits] at hf
      obtain ⟨other, hmem, hother⟩ := ih hf
      exact ⟨other, List.mem_cons_of_mem record hmem, hother⟩
    · have hspan : (ofBytes bs range).readSpan shard record =
          .error ((Failure.ofError (record.spanError (Chunk.header bs) range)).within
            (.decodeShard shard.start shard.stop range)) := if_neg hfits
      simp only [hspan, Option.some.injEq] at hf
      exact ⟨record, List.mem_cons_self, hfits, hf ▸ rfl⟩

/-- A shard fails at a span of the table that does not fit. -/
theorem decodeShard_eq_some (h : Chunk.Admitted bs) {maxWorkers : Positive}
    (hs : shard ∈ (ofBytes bs range).shards maxWorkers) {f : Failure}
    (hf : ((ofBytes bs range).decodeShard shard).2 = some f) :
    ∃ record ∈ Chunk.addressTable bs, ¬ record.Fits (Chunk.header bs) ∧
      f.indexError? = some (record.spanError (Chunk.header bs) range) := by
  rw [decodeShard_ofBytes h (stop_le_of_mem_planShards hs)] at hf
  obtain ⟨record, hmem, hrecord⟩ := decodeRecords_eq_some h hf
  exact ⟨record, List.mem_of_mem_drop (List.mem_of_mem_take hmem), hrecord⟩

end OpenChunk

/-! ## Decodes -/

namespace DecodeStream

theorem undisturbed_follow {s : DecodeStream} {schedule : Nat → DecodeMove}
    (h : ∀ n, (schedule n).disturbs = false) (n : Nat) : (s.follow schedule n).1.Undisturbed := by
  induction n with
  | zero => exact fun e he => nomatch he
  | succ n ih =>
    intro e he
    rcases List.mem_append.mp he with he | he
    · exact ih e he
    · split at he
      · rw [List.mem_singleton.mp he]
        exact h n
      · cases he

/-- A decode gives what was read record by record. -/
structure Realizes (s : DecodeStream) (maxWorkers : Positive)
    (results : List (Except Error (List DecodedAppearance))) : Prop where
  /-- What the shards decode to, one shard after another, is what was read. -/
  whole : ∀ groups : List (List DecodedAppearance), results = groups.map .ok →
    (s.chunk.sequences maxWorkers).flatten = groups.flatten ∧
      ∀ shard ∈ s.chunk.shards maxWorkers, (s.chunk.decodeShard shard).2 = none
  /-- What a decode delivered that ended properly: sorted by worker, it is what was read. -/
  finished : ∀ history t, s.Course history t → history.Undisturbed →
    history.ending = some .finished → ∃ groups : List (List DecodedAppearance),
      results = groups.map .ok ∧
      ((List.range (s.chunk.shards maxWorkers).length).flatMap
        fun i => Sent.from_ i history.taken) = groups.flatten ∧
      (history.received.filterMap Received.appearance?).Perm groups.flatten
  fails_iff : ∀ history t, s.Course history t → history.Undisturbed →
    ∀ ending, history.ending = some ending →
      ((∃ f, ending = .failure f) ↔ ∃ e, .error e ∈ results)
  /-- The error of a decode is one of format, and one that was met in reading. -/
  error : ∀ history t, s.Course history t → history.Undisturbed →
    ∀ f, history.ending = some (.failure f) →
      ∃ e, f.indexError? = some e ∧ e.isFormat = true ∧ .error e ∈ results
  /-- A decode ends in which everybody gets turns. -/
  ends : ∀ schedule, KeepsReceiving (s.chunk.shards maxWorkers).length schedule →
    (∀ n, (schedule n).disturbs = false) →
      ∃ n, (s.follow schedule n).1.Undisturbed ∧ (s.follow schedule n).1.ending ≠ none

section InMemory

variable {bs : Bytes} {range : BlockRange} {maxWorkers capacity : Positive}
  {history : DecodeHistory} {t : DecodeStream}

theorem Course.finished_ofBytes (h : Chunk.Admitted bs)
    (hc : (ofChunk (.ofBytes bs range) maxWorkers capacity).Course history t)
    (hending : history.ending = some .finished) :
    (∀ record ∈ Chunk.addressTable bs, record.Fits (Chunk.header bs)) ∧
      Sent.Interleave history.taken ((OpenChunk.ofBytes bs range).sequences maxWorkers) := by
  cases hc.endsAs_of_ending hending with
  | complete _ _ _ hi ha => exact ⟨OpenChunk.fits_of_shards h ha, hi⟩

theorem Course.error_ofBytes (h : Chunk.Admitted bs)
    (hc : (ofChunk (.ofBytes bs range) maxWorkers capacity).Course history t)
    (hu : history.Undisturbed) {f : Failure} (hending : history.ending = some (.failure f)) :
    ∃ record ∈ Chunk.addressTable bs, ¬ record.Fits (Chunk.header bs) ∧
      f.indexError? = some (record.spanError (Chunk.header bs) range) := by
  generalize hsome : Received.failure f = ending at hending
  cases hc.endsAs_of_ending hending with
  | failed hreport =>
    cases hsome
    obtain ⟨shard, hshard, hfailed⟩ := hc.shard_failed hu _ (hc.accounted.reports _ hreport)
    exact OpenChunk.decodeShard_eq_some h hshard hfailed
  | cancelled _ _ _ hearly =>
    rw [cancelledEarly_of_undisturbed hu] at hearly
    cases hearly
  | complete => cases hsome

/-- Any number of workers decodes an admitted chunk to what its records stand for. -/
theorem realizes_ofBytes (h : Chunk.Admitted bs) (range : BlockRange)
    (maxWorkers capacity : Positive) :
    (ofChunk (.ofBytes bs range) maxWorkers capacity).Realizes maxWorkers
      ((Chunk.addressTable bs).map (Chunk.readRecord bs range)) := by
  have hread : ∀ e, .error e ∈ (Chunk.addressTable bs).map (Chunk.readRecord bs range) ↔ _ :=
    fun e => Chunk.readRecord_eq_error
  refine ⟨?_, ?_, ?_, ?_, ?_⟩
  · intro groups hgroups
    obtain ⟨hfits, hflatten⟩ := Chunk.readRecord_eq_ok hgroups
    refine ⟨?_, fun shard hshard => ?_⟩
    · rw [hflatten]
      exact OpenChunk.flatten_sequences h hfits maxWorkers
    · exact congrArg Prod.snd (OpenChunk.decodeShard_of_fits h hfits hshard)
  · intro history t hc hu hending
    obtain ⟨hfits, hinterleave⟩ := hc.finished_ofBytes h hending
    have hsequences : ((OpenChunk.ofBytes bs range).sequences maxWorkers).flatten =
        Chunk.decoded bs := OpenChunk.flatten_sequences h hfits maxWorkers
    refine ⟨(Chunk.addressTable bs).map (Chunk.decodedSpan bs), ?_, ?_, ?_⟩
    · rw [List.map_map]
      exact List.map_congr_left fun record hmem => if_pos (hfits record hmem)
    · have hlength : ((OpenChunk.ofBytes bs range).shards maxWorkers).length =
          ((OpenChunk.ofBytes bs range).sequences maxWorkers).length := (List.length_map _).symm
      rw [← List.flatMap_def, ← Chunk.decoded, ← hsequences]
      show (List.range ((OpenChunk.ofBytes bs range).shards maxWorkers).length).flatMap _ = _
      rw [hlength, List.flatMap_def, hinterleave.map_from]
    · rw [← List.flatMap_def, ← Chunk.decoded, ← hsequences, hc.filterMap_received]
      exact hinterleave.perm
  · intro history t hc hu ending hending
    constructor
    · rintro ⟨f, rfl⟩
      obtain ⟨record, hmem, hfits, -⟩ := hc.error_ofBytes h hu hending
      exact ⟨_, (hread _).mpr ⟨record, hmem, hfits, rfl⟩⟩
    · rintro ⟨e, he⟩
      obtain ⟨record, hmem, hfits, -⟩ := (hread e).mp he
      cases ending with
      | failure f => exact ⟨f, rfl⟩
      | finished => exact absurd ((hc.finished_ofBytes h hending).1 record hmem) hfits
      | appearance d => cases hc.endsAs_of_ending hending
  · intro history t hc hu f hending
    obtain ⟨record, hmem, hfits, hindex⟩ := hc.error_ofBytes h hu hending
    exact ⟨_, hindex, rfl, (hread _).mpr ⟨record, hmem, hfits, rfl⟩⟩
  · intro schedule hk hnever
    obtain ⟨n, hn⟩ := (Course.start (s := ofChunk (.ofBytes bs range) maxWorkers
      capacity)).eventually_ends rfl hk
    exact ⟨n, undisturbed_follow hnever n, hn⟩

end InMemory

/-- Undisturbed decodes that have come to an end both failed or both delivered the same, perhaps in
another order. -/
def SameOutcome (s s' : DecodeStream) : Prop :=
  ∀ history t history' t', s.Course history t → s'.Course history' t' →
    history.Undisturbed → history'.Undisturbed →
    ∀ ending ending', history.ending = some ending → history'.ending = some ending' →
      ((∃ f, ending = .failure f) ↔ ∃ f, ending' = .failure f) ∧
      (ending = .finished → ending' = .finished ∧
        (history.received.filterMap Received.appearance?).Perm
          (history'.received.filterMap Received.appearance?))

theorem Realizes.sameOutcome {s s' : DecodeStream} {maxWorkers maxWorkers' : Positive}
    {results : List (Except Error (List DecodedAppearance))} (h : s.Realizes maxWorkers results)
    (h' : s'.Realizes maxWorkers' results) : s.SameOutcome s' := by
  intro history t history' t' hc hc' hu hu' ending ending' hending hending'
  have hfails := h.fails_iff history t hc hu ending hending
  have hfails' := h'.fails_iff history' t' hc' hu' ending' hending'
  refine ⟨hfails.trans hfails'.symm, ?_⟩
  rintro rfl
  obtain ⟨groups, hgroups, -, hperm⟩ := h.finished history t hc hu hending
  have hend' : ending' = .finished := by
    cases ending' with
    | finished => rfl
    | failure f =>
      obtain ⟨e, he⟩ := hfails'.mp ⟨f, rfl⟩
      obtain ⟨f', hf'⟩ := hfails.mpr ⟨e, he⟩
      cases hf'
    | appearance d =>
      have hfirst := List.find?_some hending'
      cases hfirst
  subst hend'
  obtain ⟨groups', hgroups', -, hperm'⟩ := h'.finished history' t' hc' hu' hending'
  have hsame : groups = groups' := (List.map_inj_right fun _ _ heq => Except.ok.inj heq).mp
    (hgroups.symm.trans hgroups')
  exact ⟨rfl, hperm.trans (hsame ▸ hperm'.symm)⟩

end DecodeStream

namespace DecodeStart

theorem ofSource_ofBytes {bs : Bytes} {name : String} {range : BlockRange}
    (hn : BlockRange.parse? name = some range) (h : Chunk.Admitted bs)
    (maxWorkers : Positive) {capacity : Positive} (hc : capacity.val ≤ maxCapacity) :
    ofSource (.ofBytes bs) name maxWorkers capacity =
      .started (.ofChunk (OpenChunk.ofBytes bs range) maxWorkers capacity) := by
  unfold ofSource
  rw [OpenChunk.openNamed_ofBytes hn h]
  exact if_neg (Nat.not_lt.mpr hc)

theorem eq_of_ofSource_ofBytes {bs : Bytes} {name : String} {maxWorkers capacity : Positive}
    {stream : DecodeStream}
    (h : ofSource (.ofBytes bs) name maxWorkers capacity = .started stream) :
    ∃ range, BlockRange.parse? name = some range ∧ Chunk.Admitted bs ∧
      stream = .ofChunk (OpenChunk.ofBytes bs range) maxWorkers capacity := by
  unfold ofSource at h
  cases hopen : OpenChunk.openNamed (.ofBytes bs) name with
  | error e =>
    rw [hopen] at h
    cases h
  | ok opened =>
    obtain ⟨range, hname, hadmitted, rfl⟩ := OpenChunk.eq_of_openNamed_ofBytes hopen
    simp only [hopen] at h
    split at h
    · cases h
    · exact ⟨range, hname, hadmitted, (DecodeStart.started.inj h).symm⟩

/-- When bytes are accepted for decoding, they can be read record by record, and every decode of
them, whatever its number of workers and the capacity of its output, gives what was read: the
shards, one after another, the same appearances in the same order if every record is read, and an
error of format if some record is not. So all decodes have the same outcome. -/
theorem realizes_reading_of_started {bs : Bytes} {name : String} {maxWorkers capacity : Positive}
    {stream : DecodeStream}
    (h : ofSource (.ofBytes bs) name maxWorkers capacity = .started stream) :
    ∃ file results, (ChunkFile.openNamed (.ofBytes bs) name).Gives (.ok file) ∧
      file.Reads results ∧ stream.Realizes maxWorkers results ∧
      ∀ otherWorkers otherCapacity : Positive, otherCapacity.val ≤ maxCapacity →
        ∃ other, ofSource (.ofBytes bs) name otherWorkers otherCapacity = .started other ∧
          other.Realizes otherWorkers results ∧ stream.SameOutcome other := by
  obtain ⟨range, hname, hadmitted, rfl⟩ := eq_of_ofSource_ofBytes h
  have hrealizes := DecodeStream.realizes_ofBytes hadmitted range
  refine ⟨_, _, ChunkFile.openNamed_ofBytes hname hadmitted,
    ChunkFile.reads_ofBytes hadmitted range, hrealizes maxWorkers capacity, ?_⟩
  intro otherWorkers otherCapacity hcapacity
  exact ⟨_, ofSource_ofBytes hname hadmitted otherWorkers hcapacity, hrealizes _ _,
    (hrealizes maxWorkers capacity).sameOutcome (hrealizes otherWorkers otherCapacity)⟩

/-- A chunk of four addresses whose spans overlap, are empty, or lie outside the table. -/
def unevenBytes : Bytes :=
  let records : List AddressRecord :=
    [⟨.ofNat 1, 0, 2⟩, ⟨.ofNat 2, 1, 2⟩, ⟨.ofNat 3, 3, 0⟩, ⟨.ofNat 4, 2, 2⟩]
  let apps : List Appearance := [⟨10, 0⟩, ⟨12, 5⟩, ⟨11, 3⟩]
  ChunkHeader.toBytes ⟨ChunkHeader.chunkMagic, Vector.replicate 32 0, 4, 3⟩ ++
    records.flatMap AddressRecord.toBytes ++ apps.flatMap Appearance.toBytes

theorem realizes_reading_uneven :
    ∃ stream file results,
      ofSource (.ofBytes unevenBytes) "000000000-000000099" ⟨3, by decide⟩ ⟨1, by decide⟩ =
        .started stream ∧
      (ChunkFile.openNamed (.ofBytes unevenBytes) "000000000-000000099").Gives (.ok file) ∧
      file.Reads results ∧ stream.Realizes ⟨3, by decide⟩ results ∧
      ∀ otherWorkers otherCapacity : Positive, otherCapacity.val ≤ maxCapacity →
        ∃ other, ofSource (.ofBytes unevenBytes) "000000000-000000099" otherWorkers
            otherCapacity = .started other ∧
          other.Realizes otherWorkers results ∧ stream.SameOutcome other := by
  have hname : BlockRange.parse? "000000000-000000099" = some ⟨0, 99⟩ := by decide +kernel
  have hadmitted : Chunk.Admitted unevenBytes := by
    refine ⟨?_, ?_, ?_⟩ <;> decide +kernel
  have hstart := ofSource_ofBytes hname hadmitted ⟨3, by decide⟩
    (show (⟨1, by decide⟩ : Positive).val ≤ maxCapacity by decide)
  obtain ⟨file, results, hopen, hreads, hrealizes, hothers⟩ := realizes_reading_of_started hstart
  exact ⟨_, file, results, hstart, hopen, hreads, hrealizes, hothers⟩

end DecodeStart

end AppearanceIndex
