import AppearanceIndex.Decode.Worker
import AppearanceIndex.Proofs.Chunk.Codec
import AppearanceIndex.Proofs.Text.RangeGrammar

/-!
# The tables of a chunk

What a chunk file says is read off its bytes: `Chunk.addressTable` and `Chunk.appearanceTable` are
its two tables, `Chunk.spanOf` is what a record stands for, and `Chunk.decoded` is every appearance
of every record, in file order. Bytes that hold as much as their header declares
(`Chunk.Admitted`) are opened, and the readers of a decode find records and spans where the tables
have them.
-/

namespace AppearanceIndex

namespace AddressRecord

variable {h : ChunkHeader}

/-- Consecutive records of the address table end inside the file. -/
theorem location_le_fileSize {start count : Nat} (hs : start + count ≤ h.addressCount.toNat) :
    location h start + count * ChunkHeader.addressRecordWidth ≤ h.fileSize := by
  have hrecords := Nat.mul_le_mul_right ChunkHeader.addressRecordWidth hs
  rw [Nat.add_mul] at hrecords
  unfold location ChunkHeader.fileSize ChunkHeader.appearanceTableStart
  omega

/-- A span that fits ends inside the file. -/
theorem span_le_fileSize {record : AddressRecord} (hf : record.Fits h) :
    record.spanStart h + record.spanBytes ≤ h.fileSize := by
  have hspan := Nat.mul_le_mul_right ChunkHeader.appearanceWidth hf
  unfold spanEnd at hspan
  rw [Nat.add_mul] at hspan
  unfold spanStart spanBytes ChunkHeader.fileSize
  omega

end AddressRecord

namespace Chunk

def header (bs : Bytes) : ChunkHeader := ChunkHeader.ofBytes bs

def addressTable (bs : Bytes) : List AddressRecord :=
  AddressRecord.decodeAll ((bs.drop (header bs).addressTableStart).take
    ((header bs).addressCount.toNat * ChunkHeader.addressRecordWidth))

def appearanceTable (bs : Bytes) : List Appearance :=
  Appearance.decodeAll ((bs.drop (header bs).appearanceTableStart).take
    ((header bs).appearanceCount.toNat * ChunkHeader.appearanceWidth))

def spanOf (bs : Bytes) (record : AddressRecord) : List Appearance :=
  ((appearanceTable bs).drop record.offset.toNat).take record.count.toNat

/-- The appearances of a record, each with its address. -/
def decodedSpan (bs : Bytes) (record : AddressRecord) : List DecodedAppearance :=
  (spanOf bs record).map (DecodedAppearance.mk record.address)

/-- The appearances of all records. -/
def decoded (bs : Bytes) : List DecodedAppearance := (addressTable bs).flatMap (decodedSpan bs)

/-- The bytes hold the header of a chunk and the tables that it declares. -/
def Admitted (bs : Bytes) : Prop :=
  ChunkHeader.width ≤ bs.length ∧ (header bs).magic = ChunkHeader.chunkMagic ∧
    (header bs).fileSize ≤ bs.length

instance (bs : Bytes) : Decidable (Admitted bs) := inferInstanceAs (Decidable (_ ∧ _ ∧ _))

variable {bs : Bytes}

theorem Admitted.validate (h : Admitted bs) (range : BlockRange) :
    (header bs).validate range bs.length = .ok () := by
  obtain ⟨-, hmagic, hsize⟩ := h
  unfold ChunkHeader.validate
  rw [if_neg (fun hne => hne hmagic), if_neg (Nat.not_lt_of_ge hsize)]

theorem admitted_of_validate {range : BlockRange} (hw : ChunkHeader.width ≤ bs.length)
    (h : (header bs).validate range bs.length = .ok ()) : Admitted bs := by
  unfold ChunkHeader.validate at h
  split at h
  · cases h
  · next hmagic =>
    split at h
    · cases h
    · next hsize => exact ⟨hw, Classical.not_not.mp hmagic, Nat.le_of_not_lt hsize⟩

/-! ## Where the tables lie -/

theorem Admitted.appearanceTable_le (h : Admitted bs) :
    (header bs).appearanceTableStart +
      (header bs).appearanceCount.toNat * ChunkHeader.appearanceWidth ≤ bs.length := h.2.2

theorem Admitted.location_le (h : Admitted bs) {start count : Nat}
    (hs : start + count ≤ (header bs).addressCount.toNat) :
    AddressRecord.location (header bs) start + count * ChunkHeader.addressRecordWidth
      ≤ bs.length := Nat.le_trans (AddressRecord.location_le_fileSize hs) h.2.2

theorem Admitted.span_le (h : Admitted bs) {record : AddressRecord}
    (hf : record.Fits (header bs)) :
    record.spanStart (header bs) + record.spanBytes ≤ bs.length :=
  Nat.le_trans (AddressRecord.span_le_fileSize hf) h.2.2

theorem Admitted.length_addressTable (h : Admitted bs) :
    (addressTable bs).length = (header bs).addressCount.toNat := by
  have hle : AddressRecord.location (header bs) 0 +
      (header bs).addressCount.toNat * ChunkHeader.addressRecordWidth ≤ bs.length :=
    h.location_le (by omega)
  unfold AddressRecord.location at hle
  unfold addressTable
  rw [AddressRecord.length_decodeAll, List.length_take, List.length_drop,
    Nat.min_eq_left (by omega)]
  exact Nat.mul_div_cancel _ (by decide)

theorem Admitted.length_appearanceTable (h : Admitted bs) :
    (appearanceTable bs).length = (header bs).appearanceCount.toNat := by
  have hle := h.appearanceTable_le
  unfold appearanceTable
  rw [Appearance.length_decodeAll, List.length_take, List.length_drop, Nat.min_eq_left (by omega)]
  exact Nat.mul_div_cancel _ (by decide)

/-- A span that fits is as long as its record says. -/
theorem Admitted.length_spanOf (h : Admitted bs) {record : AddressRecord}
    (hf : record.Fits (header bs)) : (spanOf bs record).length = record.count.toNat := by
  have hend : record.offset.toNat + record.count.toNat ≤ (header bs).appearanceCount.toNat := hf
  unfold spanOf
  rw [List.length_take, List.length_drop, h.length_appearanceTable]
  omega

theorem getElem?_spanOf (bs : Bytes) {record : AddressRecord} {i : Nat}
    (hi : i < record.count.toNat) :
    (spanOf bs record)[i]? = (appearanceTable bs)[record.offset.toNat + i]? := by
  unfold spanOf
  rw [List.getElem?_take_of_lt hi, List.getElem?_drop]

/-- Records of consecutive positions are read in one piece. -/
theorem decodeAll_location {start count : Nat}
    (hs : start + count ≤ (header bs).addressCount.toNat) :
    AddressRecord.decodeAll ((bs.drop (AddressRecord.location (header bs) start)).take
        (count * ChunkHeader.addressRecordWidth)) =
      ((addressTable bs).drop start).take count := by
  unfold addressTable
  rw [← AddressRecord.decodeAll_drop, ← AddressRecord.decodeAll_take, List.drop_take,
    List.take_take, List.drop_drop, Nat.min_eq_left]
  · rfl
  · rw [← Nat.sub_mul]
    exact Nat.mul_le_mul_right _ (by omega)

theorem decodeAll_span {record : AddressRecord} (hf : record.Fits (header bs)) :
    Appearance.decodeAll ((bs.drop (record.spanStart (header bs))).take record.spanBytes) =
      spanOf bs record := by
  have hend : record.offset.toNat + record.count.toNat ≤ (header bs).appearanceCount.toNat := hf
  unfold spanOf appearanceTable
  rw [← Appearance.decodeAll_drop, ← Appearance.decodeAll_take, List.drop_take, List.take_take,
    List.drop_drop, Nat.min_eq_left]
  · rfl
  · rw [← Nat.sub_mul]
    exact Nat.mul_le_mul_right _ (by omega)

end Chunk

/-! ## Reading them at absolute offsets -/

theorem PositionalSource.read_ofBytes {bs : Bytes} {offset count : Nat}
    (h : offset + count ≤ bs.length) :
    (ofBytes bs).read offset count = .ok ((bs.drop offset).take count) := by
  have hsize : offset + count ≤ bs.toArray.size := by simpa using h
  show (if offset + count ≤ bs.toArray.size then _ else _) = _
  rw [if_pos hsize, slice_toArray]

theorem PositionalSource.read_ofBytes_eq_ok {bs out : Bytes} {offset count : Nat}
    (h : (ofBytes bs).read offset count = .ok out) :
    offset + count ≤ bs.length ∧ out = (bs.drop offset).take count := by
  by_cases hle : offset + count ≤ bs.length
  · rw [read_ofBytes hle] at h
    cases h
    exact ⟨hle, rfl⟩
  · have hsize : ¬ offset + count ≤ bs.toArray.size := by simpa using hle
    have herr : (ofBytes bs).read offset count = .error .pastEnd := if_neg hsize
    rw [herr] at h
    cases h

namespace OpenChunk

def ofBytes (bs : Bytes) (range : BlockRange) : OpenChunk :=
  ⟨.ofBytes bs, range, Chunk.header bs⟩

theorem mapError_ok {α ε ε' : Type} (f : ε → ε') (a : α) :
    (Except.ok a).mapError f = .ok a := rfl

theorem mapError_error {α ε ε' : Type} (f : ε → ε') (e : ε) :
    (Except.error e : Except ε α).mapError f = .error (f e) := rfl

theorem openNamed_ofBytes {bs : Bytes} {name : String} {range : BlockRange}
    (hn : BlockRange.parse? name = some range) (h : Chunk.Admitted bs) :
    openNamed (.ofBytes bs) name = .ok (ofBytes bs range) := by
  have hrange : BlockRange.ofName name = .ok range := BlockRange.ofName_eq_ok.mpr hn
  have hread : (PositionalSource.ofBytes bs).read 0 ChunkHeader.width =
      .ok ((bs.drop 0).take ChunkHeader.width) :=
    PositionalSource.read_ofBytes (by simpa using h.1)
  have hheader : ChunkHeader.ofBytes (bs.take ChunkHeader.width) = Chunk.header bs :=
    ChunkHeader.ofBytes_take (Nat.le_refl _)
  have hsize : (PositionalSource.ofBytes bs).size = .ok bs.length := by
    show Except.ok bs.toArray.size = _
    simp
  unfold openNamed
  simp only [hrange, hread, hsize, List.drop_zero, hheader, bind, Except.bind, mapError_ok,
    h.validate range]
  rfl

theorem eq_of_openNamed_ofBytes {bs : Bytes} {name : String} {chunk : OpenChunk}
    (h : openNamed (.ofBytes bs) name = .ok chunk) :
    ∃ range, BlockRange.parse? name = some range ∧ Chunk.Admitted bs ∧
      chunk = ofBytes bs range := by
  unfold openNamed at h
  cases hn : BlockRange.parse? name with
  | none =>
    simp only [BlockRange.ofName, hn, bind, Except.bind] at h
    cases h
  | some range =>
    simp only [BlockRange.ofName, hn, bind, Except.bind] at h
    cases hread : (PositionalSource.ofBytes bs).read 0 ChunkHeader.width with
    | error e =>
      rw [hread] at h
      cases h
    | ok out =>
      obtain ⟨hle, rfl⟩ := PositionalSource.read_ofBytes_eq_ok hread
      have hheader : ChunkHeader.ofBytes (bs.take ChunkHeader.width) = Chunk.header bs :=
        ChunkHeader.ofBytes_take (Nat.le_refl _)
      have hsize : (PositionalSource.ofBytes bs).size = .ok bs.length := by
        show Except.ok bs.toArray.size = _
        simp
      simp only [hread, hsize, List.drop_zero, hheader, mapError_ok] at h
      cases hv : (Chunk.header bs).validate range bs.length with
      | error e =>
        rw [hv] at h
        cases h
      | ok _ =>
        rw [hv] at h
        cases h
        exact ⟨range, rfl, Chunk.admitted_of_validate (by omega) hv, rfl⟩

variable {bs : Bytes} {range : BlockRange}

theorem readRecords_ofBytes (h : Chunk.Admitted bs) {shard : Shard}
    (hs : shard.stop ≤ (Chunk.header bs).addressCount.toNat) :
    (ofBytes bs range).readRecords shard =
      .ok (((Chunk.addressTable bs).drop shard.start).take shard.length) := by
  have hread := PositionalSource.read_ofBytes (h.location_le hs)
  unfold readRecords
  rw [show (ofBytes bs range).source = .ofBytes bs from rfl,
    show (ofBytes bs range).header = Chunk.header bs from rfl, hread]
  exact congrArg Except.ok (Chunk.decodeAll_location hs)

theorem readSpan_ofBytes (h : Chunk.Admitted bs) (shard : Shard) {record : AddressRecord}
    (hf : record.Fits (Chunk.header bs)) :
    (ofBytes bs range).readSpan shard record = .ok (Chunk.spanOf bs record) := by
  have hread := PositionalSource.read_ofBytes (h.span_le hf)
  unfold readSpan
  rw [show (ofBytes bs range).source = .ofBytes bs from rfl,
    show (ofBytes bs range).header = Chunk.header bs from rfl, if_pos hf, hread]
  exact congrArg Except.ok (Chunk.decodeAll_span hf)

end OpenChunk

end AppearanceIndex
