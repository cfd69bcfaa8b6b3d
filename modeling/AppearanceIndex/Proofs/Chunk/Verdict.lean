import AppearanceIndex.Decode.Stream
import AppearanceIndex.Proofs.Chunk.Lookup
import AppearanceIndex.Proofs.Chunk.Recode

/-!
# What both readers think of a file

A chunk is opened in two places, from a cursor for lookups and at absolute offsets for decoding.
`Chunk.verdict` is what becomes of bytes under a name, read off the bytes themselves: the name is
looked at first, then the length of the header, the magic number and the length of the tables, and
the first of them that is wrong is the error. Both readers come to this verdict
(`Chunk.verdict_of_both`), so one of them admits a file exactly if the other does, and what it
refuses it refuses for the same reason.
-/

namespace AppearanceIndex

namespace Chunk

/-- How many bytes the header and the tables that it declares take. -/
def needed (bs : Bytes) : Nat := 44 + 28 * bs.wordAt 36 4 + 8 * bs.wordAt 40 4

/-- The first thing that is wrong with bytes as a chunk file. -/
def defect? (bs : Bytes) : Option Malformation :=
  if bs.length < 44 then some .truncatedHeader
  else if bs.wordAt 0 4 ≠ 0xdeadbeef then some (.badMagic 4 (bs.wordAt 0 4))
  else if bs.length < needed bs then some (.tablesTooLong (needed bs) bs.length)
  else none

/-- The range and the header that bytes are admitted with under a name, or why they are not. -/
def verdict (bs : Bytes) (name : String) : Except Error (BlockRange × ChunkHeader) :=
  match BlockRange.parse? name with
  | none => .error (.invalidBlockRange name)
  | some range =>
    match defect? bs with
    | some reason => .error (.malformed .chunk range reason)
    | none => .ok (range, header bs)

variable {bs : Bytes} {name : String} {range : BlockRange}

theorem magic_eq_iff : (header bs).magic = ChunkHeader.chunkMagic ↔ bs.wordAt 0 4 = 0xdeadbeef := by
  have hword : (header bs).magic.toNat = bs.wordAt 0 4 := Bytes.toNat_ofNat_wordAt bs 0
  have hmagic : ChunkHeader.chunkMagic.toNat = 0xdeadbeef := by decide
  rw [← UInt32.toNat_inj, hword, hmagic]

theorem fileSize_header : (header bs).fileSize = needed bs := by
  have haddresses : (header bs).addressCount.toNat = bs.wordAt 36 4 :=
    Bytes.toNat_ofNat_wordAt bs 36
  have happearances : (header bs).appearanceCount.toNat = bs.wordAt 40 4 :=
    Bytes.toNat_ofNat_wordAt bs 40
  unfold ChunkHeader.fileSize ChunkHeader.appearanceTableStart ChunkHeader.addressTableStart needed
  rw [haddresses, happearances, Nat.mul_comm _ ChunkHeader.addressRecordWidth,
    Nat.mul_comm _ ChunkHeader.appearanceWidth]
  rfl

/-- Behind a whole header, the check of it finds what is wrong. -/
theorem validate_header (h : 44 ≤ bs.length) (range : BlockRange) :
    (header bs).validate range bs.length =
      match defect? bs with
      | some reason => .error (.malformed .chunk range reason)
      | none => .ok () := by
  have hword : (header bs).magic.toNat = bs.wordAt 0 4 := Bytes.toNat_ofNat_wordAt bs 0
  unfold ChunkHeader.validate defect?
  rw [if_neg (Nat.not_lt_of_ge h), fileSize_header, hword]
  by_cases hmagic : bs.wordAt 0 4 = 0xdeadbeef
  · have heq := magic_eq_iff.mpr hmagic
    by_cases hsize : bs.length < needed bs <;> simp [hmagic, heq, hsize]
  · have hne : (header bs).magic ≠ ChunkHeader.chunkMagic := fun heq => hmagic (magic_eq_iff.mp heq)
    simp [hmagic, hne]

theorem verdict_of_parse (hn : BlockRange.parse? name = some range) : verdict bs name =
    match defect? bs with
    | some reason => .error (.malformed .chunk range reason)
    | none => .ok (range, header bs) := by
  unfold verdict
  rw [hn]

theorem verdict_of_no_range (hn : BlockRange.parse? name = none) :
    verdict bs name = .error (.invalidBlockRange name) := by
  unfold verdict
  rw [hn]

theorem verdict_of_short (hn : BlockRange.parse? name = some range) (h : bs.length < 44) :
    verdict bs name = .error (.malformed .chunk range .truncatedHeader) := by
  rw [verdict_of_parse hn, show defect? bs = some .truncatedHeader from if_pos h]

theorem defect?_eq_none_iff : defect? bs = none ↔
    44 ≤ bs.length ∧ bs.wordAt 0 4 = 0xdeadbeef ∧ needed bs ≤ bs.length := by
  unfold defect?
  split
  · next hshort => simp [Nat.not_le_of_lt hshort]
  · next hshort =>
    split
    · next hmagic => simp [hmagic]
    · next hmagic =>
      split
      · next hsize => simp [Nat.not_le_of_lt hsize]
      · next hsize => simp [Nat.le_of_not_lt hshort, Classical.not_not.mp hmagic,
          Nat.le_of_not_lt hsize]

theorem verdict_eq_name_iff :
    verdict bs name = .error (.invalidBlockRange name) ↔ BlockRange.parse? name = none := by
  cases hn : BlockRange.parse? name with
  | none => simp [verdict_of_no_range hn]
  | some range =>
    rw [verdict_of_parse hn]
    cases defect? bs <;> simp

theorem verdict_fails_iff (hn : BlockRange.parse? name = some range) :
    (∃ e, verdict bs name = .error e ∧ e.isFormat = true) ↔
      bs.length < 44 ∨ bs.wordAt 0 4 ≠ 0xdeadbeef ∨ bs.length < needed bs := by
  have hsome : (∃ e, verdict bs name = .error e ∧ e.isFormat = true) ↔ defect? bs ≠ none := by
    rw [verdict_of_parse hn]
    cases defect? bs <;> simp [Error.isFormat]
  rw [hsome, ne_eq, defect?_eq_none_iff, Classical.not_and_iff_not_or_not,
    Classical.not_and_iff_not_or_not, Nat.not_le, Nat.not_le]

theorem eq_of_verdict_error {e : Error} (h : verdict bs name = .error e) :
    e = .invalidBlockRange name ∨ e.isFormat = true := by
  cases hn : BlockRange.parse? name with
  | none =>
    rw [verdict_of_no_range hn] at h
    cases h
    exact .inl rfl
  | some range =>
    rw [verdict_of_parse hn] at h
    cases hdefect : defect? bs with
    | none =>
      rw [hdefect] at h
      cases h
    | some reason =>
      rw [hdefect] at h
      cases h
      exact .inr rfl

end Chunk

/-! ## From a cursor -/

theorem BlockRange.ofName_eq (name : String) : BlockRange.ofName name =
    match BlockRange.parse? name with
    | some range => .ok range
    | none => .error (.invalidBlockRange name) := rfl

/-- Opening for lookups comes to the verdict. -/
theorem ChunkFile.openNamed_gives_verdict (bs : Bytes) (name : String) :
    (openNamed (.ofBytes bs) name).Gives ((Chunk.verdict bs name).map fun admitted =>
      ⟨.ofBytes bs, admitted.1, admitted.2⟩) := by
  unfold openNamed
  rw [BlockRange.ofName_eq]
  cases hn : BlockRange.parse? name with
  | none =>
    rw [Chunk.verdict_of_no_range hn]
    exact (Reading.gives_lift _).bind_error
  | some range =>
    refine (Reading.gives_lift _).bind ?_
    by_cases hshort : bs.length < 44
    · rw [Chunk.verdict_of_short hn hshort]
      exact SeekableSource.gives_seekTo_readWith_short (by rwa [Nat.zero_add]) (by decide) _ _
    · have hwhole := Nat.le_of_not_lt hshort
      have hheader : ChunkHeader.ofBytes ((bs.drop 0).take ChunkHeader.width) = Chunk.header bs :=
        ChunkHeader.ofBytes_take (Nat.le_refl _)
      rw [Chunk.verdict_of_parse hn]
      refine SeekableSource.gives_seekTo_readWith_bind (by rwa [Nat.zero_add]) _ _ ?_
      refine (SeekableSource.gives_seekEnd _).bind ?_
      rw [hheader, Chunk.validate_header hwhole]
      cases Chunk.defect? bs with
      | none => exact (Reading.gives_lift _).bind (Reading.gives_pure _)
      | some reason => exact (Reading.gives_lift _).bind_error

/-! ## At absolute offsets -/

namespace PositionalSource

/-- The source is as long as the bytes and begins with their header, if they hold one. -/
structure Shows (source : PositionalSource) (bs : Bytes) : Prop where
  size : source.size = .ok bs.length
  header : 44 ≤ bs.length → source.read 0 ChunkHeader.width = .ok (bs.take ChunkHeader.width)
  short : bs.length < 44 → ∃ e, source.read 0 ChunkHeader.width = .error e ∧ e.isEndOfFile = true

theorem shows_ofBytes (bs : Bytes) : (ofBytes bs).Shows bs where
  size := congrArg Except.ok List.size_toArray
  header h := read_ofBytes (by rwa [Nat.zero_add])
  short h := by
    have hsize : ¬ 0 + ChunkHeader.width ≤ bs.toArray.size := by
      rw [Nat.zero_add, List.size_toArray]
      exact Nat.not_le_of_lt h
    exact ⟨.pastEnd, if_neg hsize, rfl⟩

theorem shows_ofFile (bs : Bytes) : (ofFile bs).Shows bs := by
  have hread : (ofFile bs).read 0 ChunkHeader.width =
      if 44 ≤ bs.length then .ok (bs.take ChunkHeader.width) else .error .unfilled := by
    have hcount : ¬ ChunkHeader.width = 0 := by decide
    have hlimit : ¬ offsetLimit ≤ 0 + ChunkHeader.width := by decide
    unfold ofFile
    dsimp only
    rw [if_neg hcount, if_neg hlimit, slice_toArray, List.size_toArray, Nat.zero_add]
    rfl
  exact
    { size := congrArg Except.ok List.size_toArray
      header := fun h => by rw [hread, if_pos h]
      short := fun h => ⟨.unfilled, by rw [hread, if_neg (Nat.not_le_of_lt h)], rfl⟩ }

end PositionalSource

/-- Opening for decoding comes to the verdict. -/
theorem OpenChunk.openNamed_eq_verdict {source : PositionalSource} {bs : Bytes}
    (h : source.Shows bs) (name : String) :
    openNamed source name = (Chunk.verdict bs name).map fun admitted =>
      ⟨source, admitted.1, admitted.2⟩ := by
  unfold openNamed
  rw [BlockRange.ofName_eq]
  cases hn : BlockRange.parse? name with
  | none =>
    rw [Chunk.verdict_of_no_range hn]
    rfl
  | some range =>
    by_cases hshort : bs.length < 44
    · obtain ⟨e, hread, hend⟩ := h.short hshort
      rw [Chunk.verdict_of_short hn hshort, hread]
      simp only [bind, Except.bind, mapError_error, Error.ofHeaderRead, hend, if_true, Except.map]
    · have hwhole := Nat.le_of_not_lt hshort
      have hheader : ChunkHeader.ofBytes (bs.take ChunkHeader.width) = Chunk.header bs :=
        ChunkHeader.ofBytes_take (Nat.le_refl _)
      rw [Chunk.verdict_of_parse hn, h.header hwhole, h.size]
      simp only [bind, Except.bind, mapError_ok, hheader, Chunk.validate_header hwhole]
      cases Chunk.defect? bs <;> rfl

namespace Chunk

/-- Opening bytes for lookups and opening them for decoding, from memory or from a file, come to one
verdict: the same range and the same header, or the same error. The error is about the name exactly
if the name does not parse; under a name that parses it is one of format exactly if the bytes are
shorter than a header, have another magic number or are too short for their tables; and there are
no other errors. -/
theorem verdict_of_both (bs : Bytes) (name : String) :
    (ChunkFile.openNamed (.ofBytes bs) name).Gives ((verdict bs name).map fun admitted =>
        ⟨.ofBytes bs, admitted.1, admitted.2⟩) ∧
      (∀ source, source = .ofBytes bs ∨ source = .ofFile bs → ∀ maxWorkers capacity : Positive,
        (∀ e, verdict bs name = .error e →
          DecodeStart.ofSource source name maxWorkers capacity = .refused (.ofError e)) ∧
        ∀ range header, verdict bs name = .ok (range, header) →
          capacity.val ≤ DecodeStart.maxCapacity →
            DecodeStart.ofSource source name maxWorkers capacity =
              .started (.ofChunk ⟨source, range, header⟩ maxWorkers capacity)) ∧
      (verdict bs name = .error (.invalidBlockRange name) ↔ BlockRange.parse? name = none) ∧
      (∀ range, BlockRange.parse? name = some range →
        ((∃ e, verdict bs name = .error e ∧ e.isFormat = true) ↔
          bs.length < 44 ∨ bs.wordAt 0 4 ≠ 0xdeadbeef ∨
            bs.length < 44 + 28 * bs.wordAt 36 4 + 8 * bs.wordAt 40 4)) ∧
      ∀ e, verdict bs name = .error e → e = .invalidBlockRange name ∨ e.isFormat = true := by
  refine ⟨ChunkFile.openNamed_gives_verdict bs name, fun source hsource maxWorkers capacity => ?_,
    verdict_eq_name_iff, fun range hn => verdict_fails_iff hn, fun e => eq_of_verdict_error⟩
  have hshows : source.Shows bs := by
    rcases hsource with rfl | rfl
    · exact PositionalSource.shows_ofBytes bs
    · exact PositionalSource.shows_ofFile bs
  have hopen := OpenChunk.openNamed_eq_verdict hshows name
  unfold DecodeStart.ofSource
  constructor
  · intro e he
    rw [hopen, he]
    rfl
  · intro range header hok hcapacity
    rw [hopen, hok]
    exact if_neg (Nat.not_lt_of_ge hcapacity)

/-- Of several defects, the one that is looked for first is reported. -/
example : defect? (List.replicate 50 255) = some (.badMagic 4 0xffffffff) := by decide

end Chunk

end AppearanceIndex
