import AppearanceIndex.Proofs.Ingest.Sound

/-!
# Chunks that fail

Under every schedule a chunk whose batches are complete is sound, and one whose decoding fails is
not. What a failing chunk had delivered by then are full batches of appearances that it holds
(`Ingest.Part`).
-/

namespace AppearanceIndex.Ingest

variable {s : Ingest} {chunk : ChunkEntry} {batches : List AppearanceBatch}

/-- All batches of a sound chunk. -/
def Whole (s : Ingest) (chunk : ChunkEntry) (batches : List AppearanceBatch) : Prop :=
  ∃ bs items, chunk.Sound s.files bs ∧ items.Perm (Chunk.decoded bs) ∧
    chunk.Batched s.settings.batchSize.val items batches

/-- Batches of a chunk, none of them its last, that hold appearances of the chunk. -/
structure Part (s : Ingest) (chunk : ChunkEntry) (batches : List AppearanceBatch) : Prop where
  full : ∀ batch ∈ batches, batch.range = chunk.range ∧ batch.chunkName = chunk.name ∧
    batch.appearances.length = s.settings.batchSize.val ∧ batch.lastInChunk = false
  held : batches ≠ [] → ∃ bs, s.files.contentOf chunk.path = .ok bs ∧ Chunk.Admitted bs ∧
    (appearancesOf batches).Subperm (Chunk.fitting bs)

/-- A decode of a chunk file that was opened counts against the header of the file. -/
theorem Decodes.opened {items : List DecodedAppearance} {declared : Nat} {ending : Received}
    (h : s.Decodes chunk items declared ending) :
    ∃ bs, s.files.contentOf chunk.path = .ok bs ∧ Chunk.Admitted bs ∧
      declared = (Chunk.header bs).appearanceCount.toNat ∧
      items.Subperm (Chunk.fitting bs) := by
  obtain ⟨first, history, stream, hstart, hcourse, -, hreceived, hdeclared⟩ := h
  obtain ⟨bs, opened, hread, hopen, rfl⟩ := ChunkInProgress.start_eq_started hstart
  obtain ⟨range, hname, hadmitted, rfl⟩ := OpenChunk.eq_of_openNamed_ofBytes hopen
  refine ⟨bs, hread, hadmitted, hdeclared, ?_⟩
  have htaken : items ++ ending.appearance?.toList = history.taken.map Sent.decoded := by
    rw [← hcourse.filterMap_received, hreceived]
    cases ending <;>
      simp [List.filterMap_append, List.filterMap_map, Function.comp_def, Received.appearance?]
  have hsent := hcourse.taken_interleavePrefixes.subperm
  rw [← htaken] at hsent
  exact ((List.sublist_append_left _ _).subperm.trans hsent).trans
    (OpenChunk.sequences_sublist hadmitted _).subperm

theorem Completes.whole (h : s.Completes chunk batches) : s.Whole chunk batches := by
  obtain ⟨items, hdecodes, hbatched⟩ := h
  obtain ⟨bs, hreadable, hperm⟩ := hdecodes.perm
  obtain ⟨bs', hread, -, hdeclared, -⟩ := hdecodes.opened
  rw [hreadable.read, Except.ok.injEq] at hread
  subst hread
  have hsound : chunk.Sound s.files bs :=
    { hreadable with count := by rw [← hperm.length_eq, hdeclared] }
  exact ⟨bs, items, hsound, hperm, hbatched⟩

/-- What was delivered before a chunk failed. -/
theorem Fails.part {f : Failure} (h : s.Fails chunk batches f) : s.Part chunk batches := by
  have hpart : ∀ {items rest declared ending}, s.Decodes chunk items declared ending →
      chunk.PartlyBatched s.settings.batchSize.val items batches rest → s.Part chunk batches := by
    intro items rest declared ending hdecodes hb
    obtain ⟨bs, hread, hadmitted, -, hsub⟩ := hdecodes.opened
    refine ⟨hb.full, fun _ => ⟨bs, hread, hadmitted, ?_⟩⟩
    rw [hb.items_eq] at hsub
    exact (List.sublist_append_left _ _).subperm.trans hsub
  cases h with
  | refused => exact ⟨by simp, fun hne => absurd rfl hne⟩
  | failed hdecodes hb => exact hpart hdecodes hb
  | miscounted hdecodes hb => exact hpart hdecodes hb

/-- With settings that are possible, starting a decode does not abort. -/
theorem start_ne_aborted (hp : s.settings.Possible) (chunk : ChunkEntry) :
    ChunkInProgress.start s.settings s.files chunk ≠ .aborted := by
  unfold ChunkInProgress.start
  intro habort
  cases hread : Activity.openChunkFile.ofIo (s.files.contentOf chunk.path) with
  | error f =>
    simp only [hread] at habort
    cases habort
  | ok bs =>
    simp only [hread, DecodeStart.ofSource] at habort
    cases hopen : OpenChunk.openNamed (.ofBytes bs) chunk.name with
    | error e =>
      simp only [hopen] at habort
      cases habort
    | ok opened =>
      simp only [hopen, if_neg (Nat.not_lt.mpr hp.capacity),
        if_neg (Nat.not_lt.mpr hp.batch)] at habort
      cases habort

end AppearanceIndex.Ingest
