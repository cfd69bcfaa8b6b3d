import AppearanceIndex.Proofs.Decode.InStep

/-!
# Kinds of sources

Bytes in memory and a file with the same content give the same for every read that lies inside them
(`PositionalSource.Holds`). They refuse other reads in different ways, and of empty reads beyond the
end the file refuses none. A decode makes no such read once the header is accepted, not even for a
record without appearances (`DecodeStream.ReadsInside`), so it does not tell the kinds of sources
apart.
-/

namespace AppearanceIndex

/-! ## Sources that hold the same bytes -/

namespace PositionalSource

/-- The source shows the bytes, and gives what a read inside them asks for. -/
structure Holds (source : PositionalSource) (bs : Bytes) : Prop extends source.Shows bs where
  read : ∀ {offset count : Nat}, offset + count ≤ bs.length → offset + count < offsetLimit →
    source.read offset count = .ok ((bs.drop offset).take count)

theorem holds_ofBytes (bs : Bytes) : (ofBytes bs).Holds bs :=
  { shows_ofBytes bs with read := fun hle _ => read_ofBytes hle }

theorem holds_ofFile (bs : Bytes) : (ofFile bs).Holds bs := by
  refine { shows_ofFile bs with read := fun {offset count} hle hlimit => ?_ }
  have hsize : offset + count ≤ bs.toArray.size := by rwa [List.size_toArray]
  unfold ofFile
  dsimp only
  by_cases hcount : count = 0
  · rw [if_pos hcount, hcount, List.take_zero]
  · rw [if_neg hcount, if_neg (Nat.not_le_of_lt hlimit), if_pos hsize, slice_toArray]

/-- Behind the end, the kinds of sources do differ. -/
example : (ofBytes [1]).read 2 0 = .error .pastEnd ∧ (ofFile [1]).read 2 0 = .ok [] := ⟨rfl, rfl⟩

end PositionalSource

/-- No header declares tables that reach up to the largest offset. -/
theorem ChunkHeader.fileSize_lt (h : ChunkHeader) :
    h.fileSize < PositionalSource.offsetLimit := by
  have haddresses := h.addressCount.toNat_lt
  have happearances := h.appearanceCount.toNat_lt
  simp only [fileSize, appearanceTableStart, addressTableStart, width, addressRecordWidth,
    appearanceWidth, PositionalSource.offsetLimit, UInt64.size]
  omega

namespace ReadRequest.Inside

variable {request : ReadRequest} {bs : Bytes} {source : PositionalSource}

theorem stop_le (h : request.Inside (Chunk.header bs)) (ha : Chunk.Admitted bs) :
    request.offset + request.count ≤ bs.length := Nat.le_trans h.2 ha.2.2

/-- A read of the tables gives what stands there. -/
theorem read_eq (h : request.Inside (Chunk.header bs)) (ha : Chunk.Admitted bs)
    (hs : source.Holds bs) : source.read request.offset request.count =
      .ok ((bs.drop request.offset).take request.count) :=
  hs.read (h.stop_le ha) (Nat.lt_of_le_of_lt h.2 (Chunk.header bs).fileSize_lt)

end ReadRequest.Inside

/-! ## Decodes of them -/

namespace OpenChunk

variable {source source' : PositionalSource} {bs other : Bytes}

/-- Sources that hold alike files are alike once they are open. -/
theorem alike_of_holds (h : Chunk.Alike bs other) (ha : Chunk.Admitted bs) (hs : source.Holds bs)
    (hs' : source'.Holds other) (range : BlockRange) :
    Alike ⟨source, range, Chunk.header bs⟩ ⟨source', range, Chunk.header other⟩ where
  range := rfl
  header := h.lengths
  read := by
    intro request hinside
    have hinside' : request.Inside (Chunk.header other) :=
      ⟨hinside.1, h.lengths.fileSize_eq.symm ▸ hinside.2⟩
    show source'.read request.offset request.count = source.read request.offset request.count
    rw [hinside.read_eq ha hs, hinside'.read_eq (h.admitted ha) hs',
      h.slice_eq hinside.1 hinside.2]

end OpenChunk

/-- Whatever happens, every read that a worker makes lies inside the bytes and gives what stands
there. -/
structure DecodeStream.ReadsInside (s : DecodeStream) (bs : Bytes) : Prop where
  asRequested : s.chunk.ReadsAsRequested
  inside : ∀ history t, s.Course history t → ∀ i, ∀ request ∈ history.requested i,
    request.offset + request.count ≤ bs.length ∧
      s.chunk.source.read request.offset request.count =
        .ok ((bs.drop request.offset).take request.count)

theorem DecodeStream.readsInside_ofChunk {source : PositionalSource} {bs : Bytes}
    (ha : Chunk.Admitted bs) (hs : source.Holds bs) (range : BlockRange)
    (maxWorkers capacity : Positive) :
    (ofChunk ⟨source, range, Chunk.header bs⟩ maxWorkers capacity).ReadsInside bs := by
  refine ⟨OpenChunk.readsAsRequested _, fun history t hcourse i request hmem => ?_⟩
  have hinside : request.Inside (Chunk.header bs) := hcourse.inside_of_requested hmem
  exact ⟨hinside.stop_le ha, hinside.read_eq ha hs⟩

namespace DecodeStart

variable {source source' : PositionalSource} {bs other : Bytes} {name : String}
  {maxWorkers capacity : Positive}

/-- What becomes of a source is what becomes of its bytes. -/
theorem ofSource_eq (hs : source.Shows bs) (name : String) (maxWorkers capacity : Positive) :
    ofSource source name maxWorkers capacity =
      match Chunk.verdict bs name with
      | .error e => refused (.ofError e)
      | .ok (range, header) =>
        if maxCapacity < capacity.val then aborted
        else started (.ofChunk ⟨source, range, header⟩ maxWorkers capacity) := by
  unfold ofSource
  rw [OpenChunk.openNamed_eq_verdict hs]
  cases Chunk.verdict bs name <;> rfl

/-- Where the verdicts agree, so do the beginnings. -/
theorem related_of_verdict {r : DecodeStream → DecodeStream → Prop} (hs : source.Shows bs)
    (hs' : source'.Shows other)
    (hverdict : Chunk.verdict other name =
      (Chunk.verdict bs name).map fun admitted => (admitted.1, Chunk.header other))
    (hr : ∀ range, Chunk.Admitted bs →
      r (.ofChunk ⟨source, range, Chunk.header bs⟩ maxWorkers capacity)
        (.ofChunk ⟨source', range, Chunk.header other⟩ maxWorkers capacity)) :
    Related r (ofSource source name maxWorkers capacity)
      (ofSource source' name maxWorkers capacity) := by
  rw [ofSource_eq hs, ofSource_eq hs', hverdict]
  cases hv : Chunk.verdict bs name with
  | error e => exact .refused _
  | ok admitted =>
    obtain ⟨range, header⟩ := admitted
    obtain ⟨-, ha, hheader⟩ := Chunk.eq_of_verdict_ok hv
    cases hheader
    by_cases hcapacity : maxCapacity < capacity.val
    · simp only [Except.map, if_pos hcapacity]
      exact .aborted
    · simp only [Except.map, if_neg hcapacity]
      exact .started (hr range ha)

/-- Decoding does not depend on the kind of source: over bytes in memory and over a file that
contains them it is refused for the same reason, or admitted with the same header and then in step,
shard by shard and move by move. No read behind the header leaves the bytes, or fails. -/
theorem related_memory_file (bs : Bytes) (name : String) (maxWorkers capacity : Positive) :
    Related (fun s other => other.chunk.range = s.chunk.range ∧
        other.chunk.header = s.chunk.header ∧ s.InStep other ∧ s.ReadsInside bs ∧
          other.ReadsInside bs)
      (ofSource (.ofBytes bs) name maxWorkers capacity)
      (ofSource (.ofFile bs) name maxWorkers capacity) := by
  have hmemory := PositionalSource.holds_ofBytes bs
  have hfile := PositionalSource.holds_ofFile bs
  refine related_of_verdict hmemory.toShows hfile.toShows (Chunk.verdict_eq_map bs name) ?_
  intro range ha
  have halike := OpenChunk.alike_of_holds ha.alike ha hmemory hfile range
  exact ⟨rfl, rfl, DecodeStream.inStep_of_alike halike maxWorkers capacity,
    DecodeStream.readsInside_ofChunk ha hmemory range maxWorkers capacity,
    DecodeStream.readsInside_ofChunk ha hfile range maxWorkers capacity⟩

end DecodeStart

end AppearanceIndex
