import AppearanceIndex.Proofs.Chunk.Codec

/-!
# Writing what was read

Words, headers and records that were read off bytes are written as those bytes again. A table that
is read in whole records is written as the bytes of these records; of what it was read from, only a
tail too short for a record is missing.
-/

namespace AppearanceIndex

namespace Bytes

theorem littleEndian_wordAt {bs : Bytes} {at_ width : Nat} (h : at_ + width ≤ bs.length) :
    littleEndian width (bs.wordAt at_ width) = (bs.drop at_).take width := by
  have hlength : ((bs.drop at_).take width).length = width := by
    rw [List.length_take, List.length_drop]
    omega
  have hword := littleEndian_ofLittleEndian ((bs.drop at_).take width)
  rwa [hlength] at hword

theorem toNat_ofNat_wordAt (bs : Bytes) (at_ : Nat) :
    (UInt32.ofNat (bs.wordAt at_ 4)).toNat = bs.wordAt at_ 4 :=
  UInt32.toNat_ofNat_of_lt' (bs.wordAt_lt at_ 4)

theorem toList_window {bs : Bytes} {offset count : Nat} (h : offset + count ≤ bs.length) :
    (bs.window offset count).toList = (bs.drop offset).take count := by
  apply List.ext_getElem
  · rw [Vector.length_toList, List.length_take, List.length_drop]
    omega
  · intro i hi hi'
    rw [Vector.length_toList] at hi
    rw [Vector.getElem_toList, List.getElem_take, List.getElem_drop]
    unfold window
    rw [Vector.getElem_ofFn, List.getD_eq_getElem?_getD, List.getElem?_eq_getElem (by omega),
      Option.getD_some]

/-- Blocks that were read one by one are written as the whole blocks of the string. -/
theorem flatMap_blocks {α : Type} {encode : α → Bytes} {decode : Bytes → α} {width : Nat}
    (h : 0 < width) (he : ∀ block : Bytes, block.length = width → encode (decode block) = block)
    (bs : Bytes) :
    ((blocks width bs).map decode).flatMap encode = bs.take (bs.length / width * width) := by
  fun_induction blocks width bs with
  | case1 bs hw ih =>
    have hle : width ≤ bs.length := by
      have hlength := hw.2
      rw [List.length_take] at hlength
      omega
    have hcount : bs.length / width * width = width + (bs.length - width) / width * width := by
      rw [Nat.div_eq_sub_div h hle, Nat.succ_mul, Nat.add_comm]
    rw [List.map_cons, List.flatMap_cons, he _ hw.2, ih, List.length_drop, hcount, List.take_add]
  | case2 bs hw =>
    have hlt : bs.length < width := by
      rw [List.length_take] at hw
      omega
    rw [Nat.div_eq_of_lt hlt, Nat.zero_mul, List.take_zero]
    rfl

end Bytes

theorem Address.toBytes_ofBytes {bs : Bytes} (h : bs.length = width) :
    (ofBytes bs).toBytes = bs := by
  have hlt : Bytes.ofBigEndian bs < Bytes.capacity 20 := by
    have hbs := Bytes.ofBigEndian_lt bs
    rwa [h] at hbs
  have hword := Bytes.bigEndian_ofBigEndian bs
  rw [h] at hword
  show Bytes.bigEndian width (Bytes.ofBigEndian bs % Bytes.capacity 20) = bs
  rw [Nat.mod_eq_of_lt hlt]
  exact hword

namespace AddressRecord

theorem toBytes_ofBytes {bs : Bytes} (h : bs.length = ChunkHeader.addressRecordWidth) :
    (ofBytes bs).toBytes = bs := by
  have hlength : bs.length = 28 := h
  have haddress : (Address.ofBytes (bs.take Address.width)).toBytes = bs.take 20 :=
    Address.toBytes_ofBytes (by rw [List.length_take, hlength]; rfl)
  have hparts : bs.take 20 ++ (bs.drop 20).take 4 ++ (bs.drop 24).take 4 = bs := by
    rw [← List.take_add, ← List.take_add, List.take_of_length_le (by omega)]
  unfold toBytes ofBytes
  rw [haddress, Bytes.toNat_ofNat_wordAt, Bytes.toNat_ofNat_wordAt,
    Bytes.littleEndian_wordAt (by omega), Bytes.littleEndian_wordAt (by omega)]
  exact hparts

/-- Records that were read are written as the bytes they were read from. -/
theorem flatMap_decodeAll (bs : Bytes) : (decodeAll bs).flatMap toBytes =
    bs.take (bs.length / ChunkHeader.addressRecordWidth * ChunkHeader.addressRecordWidth) := by
  rw [decodeAll_eq_map]
  exact Bytes.flatMap_blocks (by decide) (fun _ => toBytes_ofBytes) bs

end AddressRecord

namespace Appearance

theorem toBytes_ofBytes {bs : Bytes} (h : bs.length = ChunkHeader.appearanceWidth) :
    (ofBytes bs).toBytes = bs := by
  have hlength : bs.length = 8 := h
  have hparts : (bs.drop 0).take 4 ++ (bs.drop 4).take 4 = bs := by
    rw [List.drop_zero, ← List.take_add, List.take_of_length_le (by omega)]
  unfold toBytes ofBytes
  rw [Bytes.toNat_ofNat_wordAt, Bytes.toNat_ofNat_wordAt,
    Bytes.littleEndian_wordAt (by omega), Bytes.littleEndian_wordAt (by omega)]
  exact hparts

/-- Appearances that were read are written as the bytes they were read from. -/
theorem flatMap_decodeAll (bs : Bytes) : (decodeAll bs).flatMap toBytes =
    bs.take (bs.length / ChunkHeader.appearanceWidth * ChunkHeader.appearanceWidth) :=
  Bytes.flatMap_blocks (by decide) (fun _ => toBytes_ofBytes) bs

end Appearance

/-- A header is written as the bytes that a file begins with. -/
theorem ChunkHeader.toBytes_ofBytes {bs : Bytes} (h : width ≤ bs.length) :
    (ofBytes bs).toBytes = bs.take width := by
  have hlength : 44 ≤ bs.length := h
  have hparts : (bs.drop 0).take 4 ++ (bs.drop 4).take 32 ++ (bs.drop 36).take 4 ++
      (bs.drop 40).take 4 = bs.take 44 := by
    rw [List.drop_zero, ← List.take_add, ← List.take_add, ← List.take_add]
  unfold toBytes ofBytes
  rw [Bytes.toNat_ofNat_wordAt, Bytes.toNat_ofNat_wordAt, Bytes.toNat_ofNat_wordAt,
    Bytes.littleEndian_wordAt (by omega), Bytes.littleEndian_wordAt (by omega),
    Bytes.littleEndian_wordAt (by omega), Bytes.toList_window (by omega)]
  exact hparts

end AppearanceIndex
