import AppearanceIndex.Proofs.Chunk.Positions
import AppearanceIndex.Proofs.Decode.Sequential
import AppearanceIndex.Proofs.Ingest.Work

/-!
# What the count of a chunk says

A chunk is complete when as many appearances were decoded as its header declares. The producer
compares these numbers and nothing else, so it sends the last batch of a chunk just if its spans fit
and together are as long as its appearance table (`Chunk.CountsOut`). Which positions of the table
were sent is another matter: each of them once, just if no two spans share one
(`Ingest.sendsLast_iff_countsOut`).
-/

namespace AppearanceIndex.Ingest

variable {s t : Ingest} {chunk : ChunkEntry} {chunks : List ChunkEntry} {events : List Event}
  {bs : Bytes} {batches : List AppearanceBatch} {sent : List Delivery}

def SendsLast (sent : List Delivery) : Prop :=
  ∃ batch, .batch batch ∈ sent ∧ batch.lastInChunk = true

theorem sendsLast_of_batched {size : Nat} {items : List DecodedAppearance}
    (h : chunk.Batched size items batches) : SendsLast (asDeliveries batches) := by
  obtain ⟨full, last, rfl, -, -, -, hlast⟩ := h
  exact ⟨last, List.mem_map_of_mem (by simp), hlast⟩

theorem Fails.not_sendsLast {f : Failure} (h : s.Fails chunk batches f) :
    ¬ SendsLast (asDeliveries batches) := by
  rintro ⟨batch, hmem, hlast⟩
  obtain ⟨other, hother, heq⟩ := List.mem_map.mp hmem
  cases heq
  have hunfinished : Unfinished [chunk] batches := h.unfinished
  rw [(hunfinished _ hother).1] at hlast
  cases hlast

/-- A decode that was started is one of a chunk file that opens. -/
theorem start_of_source {stream : DecodeStream} (hread : s.files.contentOf chunk.path = .ok bs)
    (hstart : DecodeStart.ofSource (.ofBytes bs) chunk.name s.settings.maxWorkers
      s.settings.channelCapacity = .started stream)
    (hbatch : s.settings.batchSize.val * ChunkInProgress.appearanceBytes ≤
      ChunkInProgress.maxBatchBytes) :
    ChunkInProgress.start s.settings s.files chunk = .started stream := by
  unfold ChunkInProgress.start
  simp only [hread, Activity.ofIo, hstart]
  rw [if_neg (Nat.not_lt.mpr hbatch)]

/-- A chunk file that opens is sound just if its spans fit and count out. -/
theorem sound_iff_countsOut (hread : s.files.contentOf chunk.path = .ok bs)
    (hname : ∃ range, BlockRange.parse? chunk.name = some range) (ha : Chunk.Admitted bs) :
    chunk.Sound s.files bs ↔ Chunk.CountsOut bs := by
  constructor
  · intro h
    exact ⟨h.fits, by rw [← Chunk.length_decoded ha h.fits, h.count]⟩
  · intro h
    exact ⟨⟨hread, hname, ha, h.fits⟩, by rw [Chunk.length_decoded ha h.fits, h.total_eq]⟩

/-- A producer that is done with a chunk whose decode began has sent all its batches, or a failure
came before the last. -/
theorem Stage.completes_or_fails {received : List Received} {producer : Producer}
    {stream : DecodeStream} (h : s.Stage chunk chunks [chunk] received sent producer)
    (hstart : ChunkInProgress.start s.settings s.files chunk = .started stream)
    (hdone : producer.isAtWork = false) :
    (∃ batches, s.Completes chunk batches ∧ sent = asDeliveries batches) ∨
      ∃ batches f, s.Fails chunk batches f ∧ ¬ SendsLast sent := by
  cases h with
  | sent hd hb | ended hd hb => exact .inl ⟨_, ⟨_, hd, hb⟩, rfl⟩
  | recording hf | failing hf => exact .inr ⟨_, _, hf, hf.not_sendsLast⟩
  | failed hf =>
    refine .inr ⟨_, _, hf, ?_⟩
    rintro ⟨batch, hmem, hlast⟩
    refine hf.not_sendsLast ⟨batch, ?_, hlast⟩
    simpa using hmem
  | decoding | sending | completing => cases hdone
  | aborted habort =>
    rw [hstart] at habort
    cases habort

/-- The last batch of a chunk is sent just if its spans fit and count out. Then nothing but batches
was sent, what they hold is traced back to positions of the table, and each position was sent once
just if no two spans share one. -/
theorem sendsLast_iff_countsOut (h : s.WorksOn chunk chunks events t)
    (hread : s.files.contentOf chunk.path = .ok bs) {stream : DecodeStream}
    (hstart : DecodeStart.ofSource (.ofBytes bs) chunk.name s.settings.maxWorkers
      s.settings.channelCapacity = .started stream)
    (hbatch : s.settings.batchSize.val * ChunkInProgress.appearanceBytes ≤
      ChunkInProgress.maxBatchBytes) :
    (∃ more u, Trail Ingest.step t more u ∧ s.WorksOn chunk chunks (events ++ more) u ∧
      u.producer.isAtWork = false) ∧
    (t.producer.isAtWork = false →
      ∃ sent, Trail.outputs events ++ t.queue = s.queue ++ sent ∧
        (SendsLast sent ↔ Chunk.CountsOut bs) ∧
        (SendsLast sent → ∃ batches, sent = asDeliveries batches ∧
          (∃ emitted, Chunk.Traces bs (appearancesOf batches) emitted) ∧
          ∀ emitted, Chunk.Traces bs (appearancesOf batches) emitted →
            ((∀ position < (Chunk.header bs).appearanceCount.toNat,
                (emitted.map Emission.position).count position = 1) ↔
              (Chunk.addressTable bs).Pairwise fun record other => ¬ record.Overlaps other))) := by
  refine ⟨h.exists_done, fun hdone => ?_⟩
  obtain ⟨range, hname, ha, -⟩ := DecodeStart.eq_of_ofSource_ofBytes hstart
  have hstarts := start_of_source hread hstart hbatch
  have hsound := sound_iff_countsOut hread ⟨range, hname⟩ ha
  obtain ⟨sent, hsent, hstage⟩ := h.stage
  refine ⟨sent, hsent, ?_⟩
  rcases hstage.completes_or_fails hstarts hdone with ⟨batches, hcompletes, rfl⟩ |
    ⟨batches, f, hfails, hlast⟩
  · obtain ⟨bs', items, hwhole, hperm, hbatched⟩ := hcompletes.whole
    have hsame := hread.symm.trans hwhole.read
    rw [Except.ok.injEq] at hsame
    subst hsame
    have hcounts := hsound.mp hwhole
    have hlast := sendsLast_of_batched hbatched
    obtain rfl : items = appearancesOf batches := hbatched.items_eq
    exact ⟨iff_of_true hlast hcounts, fun _ => ⟨batches, rfl,
      Chunk.exists_traces ha hcounts.fits hperm, fun _ => Chunk.once_iff_apart hcounts⟩⟩
  · have hcounts : ¬ Chunk.CountsOut bs := fun hcounts =>
      not_fails (possible_of_started hstarts) (hsound.mpr hcounts) hfails
    exact ⟨iff_of_false hlast hcounts, fun h => absurd h hlast⟩

/-! ## A chunk that counts out and does not cover its table -/

/-- The spans of the first two records share a position, that of the third is empty, and the last
position is in no span. -/
def sharedBytes : Bytes :=
  tableBytes [⟨.ofNat 1, 0, 2⟩, ⟨.ofNat 2, 1, 1⟩, ⟨.ofNat 3, 3, 0⟩] [⟨20, 1⟩, ⟨22, 0⟩, ⟨27, 4⟩]

theorem sendsLast_of_shared_position :
    ∃ events t sent, (loneIngest sharedBytes).WorksOn loneEntry [] events t ∧
      t.producer.isAtWork = false ∧ Trail.outputs events ++ t.queue = sent ∧ SendsLast sent ∧
      ∃ batches emitted, sent = asDeliveries batches ∧
        Chunk.Traces sharedBytes (appearancesOf batches) emitted ∧
        ¬ ∀ position < 3, (emitted.map Emission.position).count position = 1 := by
  have hrun : ((loneRun sharedBytes).2.abandoned = false ∧
      openedChunks (loneRun sharedBytes).1 = [loneEntry]) ∧
      (loneRun sharedBytes).2.producer.isAtWork = false := by
    decide +kernel
  obtain ⟨⟨ha, ho⟩, hdone⟩ := hrun
  have hworks := worksOn_loneRun ha ho
  have hread : (loneFiles sharedBytes).contentOf loneEntry.path = .ok sharedBytes := by
    decide +kernel
  have hadmitted : Chunk.Admitted sharedBytes := by decide +kernel
  have hname : BlockRange.parse? loneEntry.name = some ⟨20, 29⟩ := by decide +kernel
  have hstart := DecodeStart.ofSource_ofBytes hname hadmitted twoByTwo.maxWorkers
    (show twoByTwo.channelCapacity.val ≤ DecodeStart.maxCapacity by decide)
  obtain ⟨sent, hsent, hiff, htraces⟩ :=
    (sendsLast_iff_countsOut hworks hread hstart (by decide)).2 hdone
  have hcounts : Chunk.CountsOut sharedBytes := ⟨by decide +kernel, by decide +kernel⟩
  have hlast := hiff.mpr hcounts
  obtain ⟨batches, hbatches, ⟨emitted, hemitted⟩, honce⟩ := htraces hlast
  refine ⟨_, _, sent, hworks, hdone, by simpa [loneIngest, listedAs, new] using hsent, hlast,
    batches, emitted, hbatches, hemitted, fun hall => ?_⟩
  have hsize : (Chunk.header sharedBytes).appearanceCount.toNat = 3 := by decide +kernel
  have hapart := (honce emitted hemitted).mp (by rw [hsize]; exact hall)
  have htable : Chunk.addressTable sharedBytes =
      [⟨.ofNat 1, 0, 2⟩, ⟨.ofNat 2, 1, 1⟩, ⟨.ofNat 3, 3, 0⟩] := by decide +kernel
  rw [htable] at hapart
  refine List.rel_of_pairwise_cons hapart List.mem_cons_self ⟨1, ?_, ?_⟩ <;>
    exact ⟨by decide, by decide⟩

end AppearanceIndex.Ingest
