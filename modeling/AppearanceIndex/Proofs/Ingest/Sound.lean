import AppearanceIndex.Proofs.Ingest.Complete

/-!
# Sound chunks

A chunk file that opens, whose spans all fit and that holds as many appearances as it declares
(`ChunkEntry.Sound`) is decoded without failure under every schedule. So an ingest of sound chunks
whose queues can be made (`IngestSettings.Possible`) ends only when all chunks are complete.
-/

namespace AppearanceIndex

/-- The output of a decode and the room for a batch are not larger than can be. -/
structure IngestSettings.Possible (settings : IngestSettings) : Prop where
  capacity : settings.channelCapacity.val ≤ DecodeStart.maxCapacity
  batch : settings.batchSize.val * ChunkInProgress.appearanceBytes ≤ ChunkInProgress.maxBatchBytes

/-- The chunk file holds what it declares. -/
structure ChunkEntry.Sound (files : FileStore) (chunk : ChunkEntry) (bs : Bytes) : Prop
    extends chunk.Readable files bs where
  count : (Chunk.decoded bs).length = (Chunk.header bs).appearanceCount.toNat

namespace Ingest

variable {s : Ingest} {chunk : ChunkEntry} {bs : Bytes}

theorem start_of_sound (hp : s.settings.Possible) (h : chunk.Sound s.files bs) :
    ∃ range, ChunkInProgress.start s.settings s.files chunk =
      .started (.ofChunk (OpenChunk.ofBytes bs range) s.settings.maxWorkers
        s.settings.channelCapacity) := by
  obtain ⟨range, hname⟩ := h.named
  have hopen := OpenChunk.openNamed_ofBytes hname h.admitted
  refine ⟨range, ?_⟩
  unfold ChunkInProgress.start
  simp only [h.read, Activity.ofIo, DecodeStart.ofSource, hopen]
  rw [if_neg (Nat.not_lt.mpr hp.capacity)]
  simp only
  rw [if_neg (Nat.not_lt.mpr hp.batch)]

/-- Decoding a sound chunk does not fail. -/
theorem not_fails (hp : s.settings.Possible) (h : chunk.Sound s.files bs)
    {batches : List AppearanceBatch} {f : Failure} : ¬ s.Fails chunk batches f := by
  obtain ⟨range, hstart⟩ := start_of_sound hp h
  intro hfails
  cases hfails with
  | refused hrefused =>
    rw [hstart] at hrefused
    cases hrefused
  | failed hdecodes =>
    obtain ⟨first, history, stream, hfirst, hcourse, hu, hreceived, -⟩ := hdecodes
    rw [hstart, DecodeStart.started.injEq] at hfirst
    subst hfirst
    have hall : ∀ shard ∈ (OpenChunk.ofBytes bs range).shards s.settings.maxWorkers,
        ((OpenChunk.ofBytes bs range).decodeShard shard).2 = none := by
      intro shard hshard
      rw [OpenChunk.decodeShard_of_fits h.admitted h.fits hshard]
    refine hcourse.no_failure hu hall f ?_
    rw [hreceived]
    exact List.mem_append_right _ (List.mem_singleton_self _)
  | @miscounted items rest declared _ _ hdecodes _ hv =>
    have hlength : items.length = (Chunk.header bs).appearanceCount.toNat := by
      obtain ⟨bs', hreadable, hperm⟩ := hdecodes.perm
      have hread := h.read.symm.trans hreadable.read
      rw [Except.ok.injEq] at hread
      subst hread
      rw [hperm.length_eq, h.count]
    obtain ⟨first, -, -, hfirst, -, -, -, hdeclared⟩ := hdecodes
    rw [hstart, DecodeStart.started.injEq] at hfirst
    subst hfirst
    have hsame : declared = items.length := by
      rw [hdeclared, hlength]
      rfl
    unfold validateDecodedCount at hv
    rw [if_pos hsame] at hv
    cases hv

/-- An ingest of sound chunks has ended only when every chunk is complete. -/
theorem Produced.completed {produced : List Delivery} {chunks : List ChunkEntry}
    (hp : s.settings.Possible)
    (hlist : ChunkEntry.list s.files s.directory s.settings.window = .ok chunks)
    (hsound : ∀ chunk ∈ chunks, ∃ bs, chunk.Sound s.files bs) (h : s.Produced produced .ended) :
    ∃ done, s.Completed done [] ∧ produced = deliveriesOf done := by
  have hnext : ∀ {done chunk left}, s.Completed done (chunk :: left) →
      ∃ bs, chunk.Sound s.files bs := by
    intro done chunk left hdone
    refine hsound chunk ?_
    rw [hdone.chunks_eq hlist]
    exact List.mem_append_right _ List.mem_cons_self
  cases h with
  | @failed produced f hfailing =>
    cases hfailing with
    | unlisted hunlisted =>
      rw [hlist] at hunlisted
      cases hunlisted
    | failing hdone hf _ =>
      obtain ⟨bs, hbs⟩ := hnext hdone
      exact absurd hf (not_fails hp hbs)
  | aborted hdone ha =>
    obtain ⟨bs, hbs⟩ := hnext hdone
    obtain ⟨range, hstart⟩ := start_of_sound hp hbs
    rw [hstart] at ha
    cases ha
  | @ended done hdone => exact ⟨done, hdone, rfl⟩

end Ingest

end AppearanceIndex
