import AppearanceIndex.Chunk.Record
import AppearanceIndex.Proofs.Bytes

/-!
# Reading what was laid out

Headers, records and appearances are read back from the bytes that were written for them. A header
only depends on the first bytes of a file, and tables are read in whole records: from some record
on, or so many records.
-/

namespace AppearanceIndex

theorem Address.eq_of_toNat {a b : Address} (h : a.toNat = b.toNat) : a = b := by
  cases a
  cases b
  cases h
  rfl

theorem Address.ne_of_lt {a b : Address} (h : a < b) : a ≠ b := by
  rintro rfl
  exact Nat.lt_irrefl a.toNat h

@[simp] theorem Address.length_toBytes (a : Address) : a.toBytes.length = Address.width := by
  simp [Address.toBytes]

@[simp] theorem Address.ofBytes_toBytes (a : Address) : Address.ofBytes a.toBytes = a := by
  refine Address.eq_of_toNat ?_
  show Bytes.ofBigEndian (Bytes.bigEndian 20 a.toNat) % Bytes.capacity 20 = a.toNat
  rw [Bytes.ofBigEndian_bigEndian, Nat.mod_mod, Nat.mod_eq_of_lt a.isLt]

private theorem word_of_uint32 (n : UInt32) :
    UInt32.ofNat (Bytes.ofLittleEndian (Bytes.littleEndian 4 n.toNat)) = n := by
  rw [Bytes.ofLittleEndian_littleEndian_of_lt n.toNat_lt, UInt32.ofNat_toNat]

/-! ## Records -/

namespace AddressRecord

@[simp] theorem length_toBytes (r : AddressRecord) :
    r.toBytes.length = ChunkHeader.addressRecordWidth := by
  simp [toBytes, Address.width, ChunkHeader.addressRecordWidth]

@[simp] theorem ofBytes_toBytes (r : AddressRecord) : ofBytes r.toBytes = r := by
  have haddress : r.toBytes.take Address.width = r.address.toBytes := by
    unfold toBytes
    rw [List.append_assoc, List.take_left' r.address.length_toBytes]
  have hoffset : r.toBytes.wordAt 20 4 =
      Bytes.ofLittleEndian (Bytes.littleEndian 4 r.offset.toNat) := by
    unfold toBytes
    rw [List.append_assoc]
    exact Bytes.wordAt_append _ _ _ (by simp [Address.width]) (by simp)
  have hcount : r.toBytes.wordAt 24 4 =
      Bytes.ofLittleEndian (Bytes.littleEndian 4 r.count.toNat) := by
    unfold toBytes
    rw [← List.append_nil (Bytes.littleEndian 4 r.count.toNat)]
    exact Bytes.wordAt_append _ _ _ (by simp [Address.width]) (by simp)
  unfold ofBytes
  rw [haddress, hoffset, hcount, Address.ofBytes_toBytes, word_of_uint32, word_of_uint32]

theorem decodeAll_flatMap (records : List AddressRecord) {tail : Bytes}
    (ht : tail.length < ChunkHeader.addressRecordWidth) :
    decodeAll (records.flatMap toBytes ++ tail) = records := by
  rw [decodeAll_eq_map]
  exact Bytes.map_blocks_flatMap (by decide) length_toBytes ofBytes_toBytes records ht

theorem decodeAll_drop (bs : Bytes) (k : Nat) :
    decodeAll (bs.drop (k * ChunkHeader.addressRecordWidth)) = (decodeAll bs).drop k := by
  simp only [decodeAll_eq_map]
  rw [Bytes.blocks_drop (by decide), List.map_drop]

theorem decodeAll_take (bs : Bytes) (k : Nat) :
    decodeAll (bs.take (k * ChunkHeader.addressRecordWidth)) = (decodeAll bs).take k := by
  simp only [decodeAll_eq_map]
  rw [Bytes.blocks_take (by decide), List.map_take]

theorem decodeAll_single {bs : Bytes} (h : bs.length = ChunkHeader.addressRecordWidth) :
    decodeAll bs = [ofBytes bs] := by
  have hnone : Bytes.blocks ChunkHeader.addressRecordWidth [] = [] :=
    Bytes.blocks_of_length_lt (by decide)
  have hblocks : Bytes.blocks ChunkHeader.addressRecordWidth bs = [bs] := by
    rw [← List.append_nil bs, Bytes.blocks_append (by decide) h, List.append_nil, hnone]
  rw [decodeAll_eq_map, hblocks, List.map_singleton]

end AddressRecord

namespace Appearance

@[simp] theorem length_toBytes (a : Appearance) :
    a.toBytes.length = ChunkHeader.appearanceWidth := by
  simp [toBytes, ChunkHeader.appearanceWidth]

@[simp] theorem ofBytes_toBytes (a : Appearance) : ofBytes a.toBytes = a := by
  have hblock : a.toBytes.wordAt 0 4 = Bytes.ofLittleEndian (Bytes.littleEndian 4 a.block.toNat) :=
    Bytes.wordAt_append [] _ _ rfl (Bytes.length_littleEndian _ _)
  have htransaction : a.toBytes.wordAt 4 4 =
      Bytes.ofLittleEndian (Bytes.littleEndian 4 a.transaction.toNat) := by
    unfold toBytes
    rw [← List.append_nil (Bytes.littleEndian 4 a.transaction.toNat)]
    exact Bytes.wordAt_append _ _ _ (by simp) (by simp)
  unfold ofBytes
  rw [hblock, htransaction, word_of_uint32, word_of_uint32]

theorem decodeAll_flatMap (apps : List Appearance) {tail : Bytes}
    (ht : tail.length < ChunkHeader.appearanceWidth) :
    decodeAll (apps.flatMap toBytes ++ tail) = apps :=
  Bytes.map_blocks_flatMap (by decide) length_toBytes ofBytes_toBytes apps ht

theorem decodeAll_drop (bs : Bytes) (k : Nat) :
    decodeAll (bs.drop (k * ChunkHeader.appearanceWidth)) = (decodeAll bs).drop k := by
  unfold decodeAll
  rw [Bytes.blocks_drop (by decide), List.map_drop]

theorem decodeAll_take (bs : Bytes) (k : Nat) :
    decodeAll (bs.take (k * ChunkHeader.appearanceWidth)) = (decodeAll bs).take k := by
  unfold decodeAll
  rw [Bytes.blocks_take (by decide), List.map_take]

end Appearance

/-! ## Headers -/

namespace ChunkHeader

@[simp] theorem length_toBytes (h : ChunkHeader) : h.toBytes.length = width := by
  simp [toBytes, width]

theorem ofBytes_take {bs : Bytes} {n : Nat} (h : width ≤ n) : ofBytes (bs.take n) = ofBytes bs := by
  have hn : 44 ≤ n := h
  unfold ofBytes
  rw [Bytes.wordAt_take (by omega), Bytes.wordAt_take (by omega), Bytes.wordAt_take (by omega),
    Bytes.window_take (by omega)]

@[simp] theorem ofBytes_toBytes_append (h : ChunkHeader) (rest : Bytes) :
    ofBytes (h.toBytes ++ rest) = h := by
  have hmagic : (h.toBytes ++ rest).wordAt 0 4 =
      Bytes.ofLittleEndian (Bytes.littleEndian 4 h.magic.toNat) := by
    unfold toBytes
    simp only [List.append_assoc]
    exact Bytes.wordAt_append [] _ _ rfl (Bytes.length_littleEndian _ _)
  have hhash : (h.toBytes ++ rest).window 4 32 = h.hash := by
    unfold toBytes
    simp only [List.append_assoc]
    exact Bytes.window_append _ _ _ (by simp)
  have haddresses : (h.toBytes ++ rest).wordAt 36 4 =
      Bytes.ofLittleEndian (Bytes.littleEndian 4 h.addressCount.toNat) := by
    unfold toBytes
    rw [List.append_assoc, List.append_assoc]
    exact Bytes.wordAt_append _ _ _ (by simp) (by simp)
  have happearances : (h.toBytes ++ rest).wordAt 40 4 =
      Bytes.ofLittleEndian (Bytes.littleEndian 4 h.appearanceCount.toNat) := by
    unfold toBytes
    rw [List.append_assoc]
    exact Bytes.wordAt_append _ _ _ (by simp) (by simp)
  unfold ofBytes
  rw [hmagic, hhash, haddresses, happearances, word_of_uint32, word_of_uint32, word_of_uint32]

end ChunkHeader

end AppearanceIndex
