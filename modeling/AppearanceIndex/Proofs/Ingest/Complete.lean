import AppearanceIndex.Proofs.Decode.Ending
import AppearanceIndex.Proofs.Decode.Whole
import AppearanceIndex.Proofs.Ingest.Trace

/-!
# Complete chunks

The batches of a chunk that met no failure hold exactly what the chunk decodes to
(`Ingest.Completes.perm`), and a consumer that took the last batch of every chunk took all batches
of all chunks and nothing else (`Ingest.Traced.completed_of_last`).
-/

namespace AppearanceIndex

/-- The chunk file opens, and every span fits. -/
structure ChunkEntry.Readable (files : FileStore) (chunk : ChunkEntry) (bs : Bytes) : Prop where
  read : files.contentOf chunk.path = .ok bs
  named : ∃ range, BlockRange.parse? chunk.name = some range
  admitted : Chunk.Admitted bs
  fits : ∀ record ∈ Chunk.addressTable bs, record.Fits (Chunk.header bs)

namespace ChunkInProgress

variable {settings : IngestSettings} {files : FileStore} {chunk : ChunkEntry}

theorem start_eq_started {stream : DecodeStream}
    (h : start settings files chunk = .started stream) :
    ∃ bs opened, files.contentOf chunk.path = .ok bs ∧
      OpenChunk.openNamed (.ofBytes bs) chunk.name = .ok opened ∧
      stream = .ofChunk opened settings.maxWorkers settings.channelCapacity := by
  unfold start at h
  cases hread : files.contentOf chunk.path with
  | error e =>
    simp only [hread, Activity.ofIo] at h
    cases h
  | ok bs =>
    simp only [hread, Activity.ofIo, DecodeStart.ofSource] at h
    cases hopen : OpenChunk.openNamed (.ofBytes bs) chunk.name with
    | error e =>
      simp only [hopen] at h
      cases h
    | ok opened =>
      simp only [hopen] at h
      refine ⟨bs, opened, rfl, hopen, ?_⟩
      by_cases hcapacity : DecodeStart.maxCapacity < settings.channelCapacity.val
      · rw [if_pos hcapacity] at h
        cases h
      · simp only [if_neg hcapacity] at h
        by_cases hbatch : maxBatchBytes < settings.batchSize.val * appearanceBytes
        · rw [if_pos hbatch] at h
          cases h
        · rw [if_neg hbatch] at h
          exact (DecodeStart.started.inj h).symm

end ChunkInProgress

namespace Ingest

variable {s t : Ingest} {deliveries : List Delivery}

/-- A decode that gave items and then the end gave all that the chunk file decodes to. -/
theorem Decodes.perm {chunk : ChunkEntry} {items : List DecodedAppearance} {declared : Nat}
    (h : s.Decodes chunk items declared .finished) :
    ∃ bs, chunk.Readable s.files bs ∧ items.Perm (Chunk.decoded bs) := by
  obtain ⟨first, history, stream, hstart, hcourse, -, hreceived, -⟩ := h
  obtain ⟨bs, opened, hread, hopen, rfl⟩ := ChunkInProgress.start_eq_started hstart
  obtain ⟨range, hname, hadmitted, rfl⟩ := OpenChunk.eq_of_openNamed_ofBytes hopen
  obtain ⟨hinterleave, hall⟩ := hcourse.interleave_of_finished hreceived (by simp)
  have hfits := OpenChunk.fits_of_shards hadmitted hall
  have hitems : items = history.taken.map Sent.decoded := by
    rw [← hcourse.filterMap_received, hreceived]
    simp [List.filterMap_append, List.filterMap_map, Function.comp_def, Received.appearance?]
  refine ⟨bs, ⟨hread, ⟨range, hname⟩, hadmitted, hfits⟩, ?_⟩
  rw [hitems, ← OpenChunk.flatten_sequences hadmitted hfits s.settings.maxWorkers]
  exact hinterleave.perm

def appearancesOf (batches : List AppearanceBatch) : List DecodedAppearance :=
  batches.flatMap (·.appearances)

/-- Complete batches hold what the chunk file decodes to. -/
theorem Completes.perm {chunk : ChunkEntry} {batches : List AppearanceBatch}
    (h : s.Completes chunk batches) :
    ∃ bs, chunk.Readable s.files bs ∧ (appearancesOf batches).Perm (Chunk.decoded bs) := by
  obtain ⟨items, hdecodes, hbatched⟩ := h
  obtain ⟨bs, hreadable, hperm⟩ := hdecodes.perm
  have hitems : items = appearancesOf batches := hbatched.items_eq
  exact ⟨bs, hreadable, hitems ▸ hperm⟩

/-! ## The last batches -/

/-- Every chunk has had its last batch delivered. -/
def Finishes (deliveries : List Delivery) (chunks : List ChunkEntry) : Prop :=
  ∀ chunk ∈ chunks, ∃ batch, .batch batch ∈ deliveries ∧ batch.chunkName = chunk.name ∧
    batch.lastInChunk = true

/-- Batches behind those of complete chunks: of a chunk that is left, and not its last. -/
def Unfinished (left : List ChunkEntry) (batches : List AppearanceBatch) : Prop :=
  ∀ batch ∈ batches, batch.lastInChunk = false ∧ batch.chunkName ∈ left.map ChunkEntry.name

theorem unfinished_nil (left : List ChunkEntry) : Unfinished left [] := by simp [Unfinished]

theorem unfinished_of_partlyBatched {chunk : ChunkEntry} {left : List ChunkEntry} {size : Nat}
    {items rest : List DecodedAppearance} {batches : List AppearanceBatch}
    (h : chunk.PartlyBatched size items batches rest) : Unfinished (chunk :: left) batches := by
  intro batch hmem
  obtain ⟨-, hname, -, hlast⟩ := h.full batch hmem
  exact ⟨hlast, hname ▸ List.mem_cons_self⟩

theorem Unfinished.of_append {left : List ChunkEntry} {batches more : List AppearanceBatch}
    (h : Unfinished left (batches ++ more)) : Unfinished left batches :=
  fun batch hmem => h batch (List.mem_append_left _ hmem)

theorem Fails.unfinished {chunk : ChunkEntry} {left : List ChunkEntry}
    {batches : List AppearanceBatch} {f : Failure} (h : s.Fails chunk batches f) :
    Unfinished (chunk :: left) batches := by
  cases h with
  | refused => exact unfinished_nil _
  | failed _ hb | miscounted _ hb => exact unfinished_of_partlyBatched hb

/-- What was produced is complete chunks, then batches of one more chunk that are not its last,
and at most one failure. -/
theorem Produced.shape {produced : List Delivery} {producer : Producer} {chunks : List ChunkEntry}
    (hlist : ChunkEntry.list s.files s.directory s.settings.window = .ok chunks)
    (h : s.Produced produced producer) :
    ∃ done left batches failure, s.Completed done left ∧
      (left = [] → batches = [] ∧ failure = []) ∧ Unfinished left batches ∧
      (∀ d ∈ failure, ∃ f, d = .failure f) ∧
      produced = deliveriesOf done ++ asDeliveries batches ++ failure := by
  have hstart : s.Completed [] chunks := ⟨hlist, by simp⟩
  cases h with
  | listing =>
    exact ⟨[], chunks, [], [], hstart, by simp, unfinished_nil _, by simp, rfl⟩
  | unlisted h =>
    rw [hlist] at h
    cases h
  | @between done left h =>
    exact ⟨done, left, [], [], h, by simp, unfinished_nil _, by simp, by simp [asDeliveries]⟩
  | @decoding done left work items batches h hr hb =>
    exact ⟨done, _, batches, [], h, by simp, unfinished_of_partlyBatched hb, by simp, by simp⟩
  | @sending done left work items batches batch h hr hb =>
    exact ⟨done, _, batches, [], h, by simp, (unfinished_of_partlyBatched hb).of_append, by simp,
      by simp⟩
  | @completing done left chunk batches batch h hc =>
    refine ⟨done, _, batches, [], h, by simp, ?_, by simp, by simp⟩
    obtain ⟨items, -, full, last, heq, hp, -⟩ := hc
    obtain ⟨rfl, -⟩ := List.append_inj' heq rfl
    exact unfinished_of_partlyBatched hp
  | @recording done left chunk batches f h hf =>
    exact ⟨done, _, batches, [], h, by simp, hf.unfinished, by simp, by simp⟩
  | @failing done left chunk batches f g h hf hg =>
    exact ⟨done, _, batches, [], h, by simp, hf.unfinished, by simp, by simp⟩
  | @failed produced f h =>
    cases h with
    | unlisted h =>
      rw [hlist] at h
      cases h
    | @failing done left chunk batches f' g h hf hg =>
      exact ⟨done, _, batches, [.failure f], h, by simp, hf.unfinished, by simp, rfl⟩
  | @aborted done left chunk h ha =>
    exact ⟨done, _, [], [], h, by simp, unfinished_nil _, by simp, by simp [asDeliveries]⟩
  | @ended done h =>
    exact ⟨done, [], [], [], h, by simp, unfinished_nil _, by simp, by simp [asDeliveries]⟩

theorem Completed.owner {done : List (ChunkEntry × List AppearanceBatch)} {left : List ChunkEntry}
    (h : s.Completed done left) {batch : AppearanceBatch}
    (hb : .batch batch ∈ deliveriesOf done) :
    ∃ entry ∈ done, batch ∈ entry.2 ∧ batch.chunkName = entry.1.name := by
  obtain ⟨entry, hentry, hmem⟩ := List.mem_flatMap.mp hb
  obtain ⟨other, hother, heq⟩ := List.mem_map.mp hmem
  cases heq
  obtain ⟨items, -, hbatched⟩ := h.complete entry hentry
  exact ⟨entry, hentry, hother, (hbatched.of_mem hother).2⟩

/-- The last batch of one more chunk is among the deliveries neither of other chunks nor of batches
that are not the last of theirs. -/
theorem Completed.not_last_of_next {done : List (ChunkEntry × List AppearanceBatch)}
    {left : List ChunkEntry} (h : s.Completed done left) {chunk : ChunkEntry}
    (hname : chunk.name ∉ (done.map Prod.fst).map ChunkEntry.name)
    {batches : List AppearanceBatch} (hnot : ∀ batch ∈ batches, batch.lastInChunk = false)
    {batch : AppearanceBatch} (hchunk : batch.chunkName = chunk.name)
    (hlast : batch.lastInChunk = true) :
    .batch batch ∉ deliveriesOf done ++ asDeliveries batches := by
  intro hmem
  rcases List.mem_append.mp hmem with hmem | hmem
  · obtain ⟨entry, hentry, -, howner⟩ := h.owner hmem
    refine hname ?_
    rw [← hchunk, howner]
    exact List.mem_map_of_mem (List.mem_map_of_mem hentry)
  · obtain ⟨other, hother, heq⟩ := List.mem_map.mp hmem
    cases heq
    rw [hnot _ hother] at hlast
    cases hlast

theorem Traced.prefix_produced (h : s.Traced deliveries t) :
    ∃ produced producer, s.Produced produced producer ∧ deliveries <+: produced := by
  cases ha : t.abandoned with
  | false => exact ⟨_, _, h.produced ha, List.prefix_append _ _⟩
  | true => exact (h.kept ha).2

theorem Completed.chunks_eq {done : List (ChunkEntry × List AppearanceBatch)}
    {left chunks : List ChunkEntry} (h : s.Completed done left)
    (hlist : ChunkEntry.list s.files s.directory s.settings.window = .ok chunks) :
    chunks = done.map Prod.fst ++ left := by
  have hlisted := hlist.symm.trans h.listed
  rwa [Except.ok.injEq] at hlisted

/-- The name of a chunk does not occur among those before it. -/
theorem name_not_mem_of_nodup {before after : List ChunkEntry} {chunk : ChunkEntry}
    (h : ((before ++ chunk :: after).map ChunkEntry.name).Nodup) :
    chunk.name ∉ before.map ChunkEntry.name := by
  rw [List.map_append, List.map_cons, List.nodup_append] at h
  intro hmem
  exact h.2.2 _ hmem chunk.name List.mem_cons_self rfl

/-- Whoever took the last batches of complete chunks took all their batches. -/
theorem Completed.eq_of_prefix {done : List (ChunkEntry × List AppearanceBatch)}
    (h : s.Completed done []) (hnames : ((done.map Prod.fst).map ChunkEntry.name).Nodup)
    (hpre : deliveries <+: deliveriesOf done) (hlast : Finishes deliveries (done.map Prod.fst)) :
    deliveries = deliveriesOf done := by
  rcases List.eq_nil_or_concat done with rfl | ⟨init, ⟨chunk, all⟩, rfl⟩
  · exact List.prefix_nil.mp hpre
  · -- the last batch of the last chunk is taken at the very end
    rw [List.concat_eq_append] at h hnames hpre hlast ⊢
    rw [List.map_append] at hnames
    obtain ⟨items, -, full, last, rfl, hp, -⟩ := h.complete (chunk, all) (by simp)
    obtain ⟨batch, hmem, hchunk, hmarked⟩ := hlast chunk (by simp)
    have hinit : s.Completed init [chunk] := by
      refine ⟨?_, fun entry hentry => h.complete entry (by simp [hentry])⟩
      rw [h.listed]
      simp
    have hsplit : deliveriesOf (init ++ [(chunk, full ++ [last])]) =
        (deliveriesOf init ++ asDeliveries full) ++ [.batch last] := by
      rw [deliveriesOf_append, deliveriesOf_single, asDeliveries_append, List.append_assoc]
      rfl
    rw [hsplit, List.prefix_concat_iff] at hpre
    rcases hpre with heq | hpre
    · rw [heq, hsplit]
    · have hnot := hinit.not_last_of_next (name_not_mem_of_nodup hnames)
        (fun b hb => (hp.full b hb).2.2.2) hchunk hmarked
      exact absurd (hpre.subset hmem) hnot

/-- A consumer that took the last batch of every chunk took everything. -/
theorem Traced.completed_of_last {chunks : List ChunkEntry} (h : s.Traced deliveries t)
    (hlist : ChunkEntry.list s.files s.directory s.settings.window = .ok chunks)
    (hnames : (chunks.map ChunkEntry.name).Nodup) (hlast : Finishes deliveries chunks) :
    ∃ done, s.Completed done [] ∧ deliveries = deliveriesOf done := by
  obtain ⟨produced, producer, hproduced, hpre⟩ := h.prefix_produced
  obtain ⟨done, left, batches, failure, hdone, hnil, hnot, hfailure, rfl⟩ := hproduced.shape hlist
  obtain rfl := hdone.chunks_eq hlist
  cases left with
  | nil =>
    obtain ⟨rfl, rfl⟩ := hnil rfl
    simp only [asDeliveries, List.map_nil, List.append_nil] at hpre hnames hlast
    exact ⟨done, hdone, hdone.eq_of_prefix hnames hpre hlast⟩
  | cons chunk left =>
    obtain ⟨batch, hmem, hchunk, hmarked⟩ := hlast chunk (by simp)
    rcases List.mem_append.mp (hpre.subset hmem) with hmem | hmem
    · have hmissing := hdone.not_last_of_next (name_not_mem_of_nodup hnames)
        (fun b hb => (hnot b hb).1) hchunk hmarked
      exact absurd hmem hmissing
    · obtain ⟨f, hf⟩ := hfailure _ hmem
      cases hf

end Ingest

end AppearanceIndex
