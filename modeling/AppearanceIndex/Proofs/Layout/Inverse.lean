import AppearanceIndex.Proofs.Chunk.Recode
import AppearanceIndex.Proofs.Layout.Places

/-!
# Writing and reading undo each other

A kind of value has a fixed layout if it is written in so many bytes, each where `byteAt` says, if
every value is read back from what is written for it, and if all byte strings of that width are what
is written for the value read from them (`FixedLayout`). Nothing else is needed to read tables of
such values (`FixedLayout.table`): a table consists of its whole blocks, and the tail that is too
short for one more is left out.
-/

namespace AppearanceIndex

open Bytes

/-- The longest beginning of a string that is a whole number of blocks. -/
structure Bytes.IsWholePart (width : Nat) (bs part : Bytes) : Prop where
  begins : part <+: bs
  whole : width ∣ part.length
  longest : ∀ other : Bytes, other <+: bs → width ∣ other.length → other <+: part

theorem Bytes.isWholePart_take {width : Nat} (bs : Bytes) :
    IsWholePart width bs (bs.take (bs.length / width * width)) where
  begins := List.take_prefix _ bs
  whole := by
    rw [List.length_take, Nat.min_eq_left (Nat.div_mul_le_self _ _)]
    exact Nat.dvd_mul_left _ _
  longest other hbegins hwhole := by
    have htake := List.take_prefix (bs.length / width * width) bs
    have hle : other.length ≤ bs.length / width * width :=
      calc other.length = other.length / width * width := (Nat.div_mul_cancel hwhole).symm
        _ ≤ bs.length / width * width :=
          Nat.mul_le_mul_right width (Nat.div_le_div_right hbegins.length_le)
    refine List.prefix_of_prefix_length_le hbegins htake ?_
    rwa [List.length_take, Nat.min_eq_left (Nat.div_mul_le_self _ _)]

section Layouts

variable {α : Type} {width : Nat} {byteAt : α → Nat → UInt8} {toBytes : α → Bytes}
  {ofBytes : Bytes → α}

/-- Values are written in `width` bytes, and writing and reading undo each other. -/
structure FixedLayout (width : Nat) (byteAt : α → Nat → UInt8) (toBytes : α → Bytes)
    (ofBytes : Bytes → α) : Prop where
  length_toBytes : ∀ a, (toBytes a).length = width
  getElem?_toBytes : ∀ a, ∀ i < width, (toBytes a)[i]? = some (byteAt a i)
  ofBytes_toBytes : ∀ a, ofBytes (toBytes a) = a
  toBytes_ofBytes : ∀ bs : Bytes, bs.length = width → toBytes (ofBytes bs) = bs

/-- Values are read off a table of any length, as many as are there as a whole. -/
structure TableLayout (width : Nat) (byteAt : α → Nat → UInt8) (toBytes : α → Bytes)
    (ofBytes : Bytes → α) (decodeAll : Bytes → List α) : Prop where
  decodeAll_flatMap : ∀ (as : List α) (tail : Bytes), tail.length < width →
    decodeAll (as.flatMap toBytes ++ tail) = as
  isWholePart : ∀ bs, IsWholePart width bs ((decodeAll bs).flatMap toBytes)
  /-- A block of a table is read as it is read by itself. -/
  getElem?_decodeAll : ∀ bs i, (decodeAll bs)[i]? =
    if (i + 1) * width ≤ bs.length then some (ofBytes ((bs.drop (i * width)).take width)) else none
  /-- A value is read just where its bytes stand. -/
  getElem?_eq_some_iff : ∀ bs i a, (decodeAll bs)[i]? = some a ↔
    ∀ j < width, bs[i * width + j]? = some (byteAt a j)

namespace FixedLayout

variable (h : FixedLayout width byteAt toBytes ofBytes)

include h

theorem eq_toBytes_iff {bs : Bytes} {a : α} :
    bs = toBytes a ↔ bs.length = width ∧ ofBytes bs = a := by
  constructor
  · rintro rfl
    exact ⟨h.length_toBytes a, h.ofBytes_toBytes a⟩
  · rintro ⟨hlength, rfl⟩
    exact (h.toBytes_ofBytes bs hlength).symm

/-- The bytes of a value stand at an offset if they are the slice there. -/
theorem slice_eq_toBytes_iff {bs : Bytes} {offset : Nat} {a : α} :
    (bs.drop offset).take width = toBytes a ↔
      ∀ j < width, bs[offset + j]? = some (byteAt a j) := by
  constructor
  · intro hslice j hj
    rw [← h.getElem?_toBytes a j hj, ← hslice, List.getElem?_take_of_lt hj, List.getElem?_drop]
  · intro hbytes
    refine List.ext_getElem? fun j => ?_
    by_cases hj : j < width
    · rw [List.getElem?_take_of_lt hj, List.getElem?_drop, hbytes j hj, h.getElem?_toBytes a j hj]
    · have hle : width ≤ j := Nat.le_of_not_lt hj
      rw [List.getElem?_take_eq_none hle, List.getElem?_eq_none (by rwa [h.length_toBytes])]

theorem table (hw : 0 < width) :
    TableLayout width byteAt toBytes ofBytes fun bs => (bs.blocks width).map ofBytes where
  decodeAll_flatMap as _ ht := map_blocks_flatMap hw h.length_toBytes h.ofBytes_toBytes as ht
  isWholePart bs := by
    rw [flatMap_blocks hw h.toBytes_ofBytes]
    exact isWholePart_take bs
  getElem?_decodeAll bs i := by
    rw [List.getElem?_map, getElem?_blocks hw]
    split <;> rfl
  getElem?_eq_some_iff bs i a := by
    have hi : (i + 1) * width = i * width + width := Nat.succ_mul i width
    -- only a slice that the string does not cut short can be what is written for a value
    have hlength : ((bs.drop (i * width)).take width).length = width ↔
        (i + 1) * width ≤ bs.length := by
      rw [List.length_take, List.length_drop]
      omega
    rw [List.getElem?_map, getElem?_blocks hw, ← h.slice_eq_toBytes_iff, h.eq_toBytes_iff, hlength]
    split
    · next hle => simp [hle]
    · next hlt => simp [hlt]

end FixedLayout

end Layouts

/-! ## The layouts of chunk and bloom files -/

theorem ChunkHeader.fixedLayout : FixedLayout width byteAt toBytes ofBytes where
  length_toBytes := length_toBytes
  getElem?_toBytes h _ := h.getElem?_toBytes
  ofBytes_toBytes h := by simpa using h.ofBytes_toBytes_append []
  toBytes_ofBytes bs hl := by
    rw [toBytes_ofBytes (Nat.le_of_eq hl.symm), List.take_of_length_le (Nat.le_of_eq hl)]

namespace BloomHeader

theorem ofBytes_toBytes (h : BloomHeader) : ofBytes h.toBytes = h := by
  have hmagic : h.toBytes.wordAt 0 2 = ofLittleEndian (littleEndian 2 h.magic.toNat) :=
    wordAt_append [] _ _ rfl (length_littleEndian _ _)
  have hhash : h.toBytes.window 2 32 = h.hash := by
    unfold toBytes
    rw [← List.append_nil h.hash.toList]
    exact window_append _ _ _ (length_littleEndian _ _)
  unfold ofBytes
  rw [hmagic, hhash, ofLittleEndian_littleEndian_of_lt h.magic.toNat_lt, UInt16.ofNat_toNat]

theorem toBytes_ofBytes {bs : Bytes} (h : bs.length = width) : (ofBytes bs).toBytes = bs := by
  have hlength : bs.length = 34 := h
  have hmagic : (UInt16.ofNat (bs.wordAt 0 2)).toNat = bs.wordAt 0 2 :=
    UInt16.toNat_ofNat_of_lt' (bs.wordAt_lt 0 2)
  have hparts : (bs.drop 0).take 2 ++ (bs.drop 2).take 32 = bs := by
    rw [List.drop_zero, ← List.take_add, List.take_of_length_le (by omega)]
  unfold toBytes ofBytes
  rw [hmagic, littleEndian_wordAt (by omega), toList_window (by omega)]
  exact hparts

theorem fixedLayout : FixedLayout width byteAt toBytes ofBytes where
  length_toBytes := length_toBytes
  getElem?_toBytes h _ := h.getElem?_toBytes
  ofBytes_toBytes := ofBytes_toBytes
  toBytes_ofBytes _ := toBytes_ofBytes

end BloomHeader

theorem AddressRecord.fixedLayout :
    FixedLayout ChunkHeader.addressRecordWidth byteAt toBytes ofBytes where
  length_toBytes := length_toBytes
  getElem?_toBytes r _ := r.getElem?_toBytes
  ofBytes_toBytes := ofBytes_toBytes
  toBytes_ofBytes _ := toBytes_ofBytes

theorem Appearance.fixedLayout :
    FixedLayout ChunkHeader.appearanceWidth byteAt toBytes ofBytes where
  length_toBytes := length_toBytes
  getElem?_toBytes a _ := a.getElem?_toBytes
  ofBytes_toBytes := ofBytes_toBytes
  toBytes_ofBytes _ := toBytes_ofBytes

/-- Headers and address records are written and read byte for byte, and tables of address records
and of appearances are read record by record, whatever is left over behind them. -/
theorem layouts_are_exact :
    FixedLayout ChunkHeader.width ChunkHeader.byteAt ChunkHeader.toBytes ChunkHeader.ofBytes ∧
    FixedLayout BloomHeader.width BloomHeader.byteAt BloomHeader.toBytes BloomHeader.ofBytes ∧
    FixedLayout ChunkHeader.addressRecordWidth AddressRecord.byteAt AddressRecord.toBytes
      AddressRecord.ofBytes ∧
    TableLayout ChunkHeader.addressRecordWidth AddressRecord.byteAt AddressRecord.toBytes
      AddressRecord.ofBytes AddressRecord.decodeAll ∧
    TableLayout ChunkHeader.appearanceWidth Appearance.byteAt Appearance.toBytes
      Appearance.ofBytes Appearance.decodeAll :=
  ⟨ChunkHeader.fixedLayout, BloomHeader.fixedLayout, AddressRecord.fixedLayout,
    funext AddressRecord.decodeAll_eq_map ▸ AddressRecord.fixedLayout.table (by decide),
    Appearance.fixedLayout.table (by decide)⟩

/-- A table that is cut one byte before the end of its third record. -/
theorem layouts_are_exact_cut_table :
    let first : AddressRecord := ⟨.ofNat 2, 7, 0x01020304⟩
    let second : AddressRecord := ⟨.ofNat 1, 0, 7⟩
    let tail : Bytes := List.replicate 27 0xff
    let table : Bytes := [first, second].flatMap AddressRecord.toBytes ++ tail
    tail.length < ChunkHeader.addressRecordWidth ∧
      AddressRecord.decodeAll table = [first, second] ∧
      (AddressRecord.decodeAll table)[2]? = none ∧ table[24]? = some 4 ∧ table[27]? = some 1 ∧
      (List.replicate 34 0xff : Bytes).length = BloomHeader.width ∧
      (BloomHeader.ofBytes (List.replicate 34 0xff)).toBytes = List.replicate 34 0xff := by
  intro first second tail table
  obtain ⟨-, hbloom, -, htable, -⟩ := layouts_are_exact
  have htail : tail.length < ChunkHeader.addressRecordWidth := by decide
  have hread : AddressRecord.decodeAll table = [first, second] := htable.decodeAll_flatMap _ _ htail
  have hbyte : ∀ j < 28, table[0 * 28 + j]? = some (first.byteAt j) :=
    (htable.getElem?_eq_some_iff table 0 first).mp (by rw [hread]; rfl)
  have hnone : (AddressRecord.decodeAll table)[2]? = none := by
    rw [htable.getElem?_decodeAll]
    exact if_neg (by decide)
  have hlow : first.byteAt 24 = 4 := by decide
  have hhigh : first.byteAt 27 = 1 := by decide
  exact ⟨htail, hread, hnone, hlow ▸ hbyte 24 (by decide), hhigh ▸ hbyte 27 (by decide), rfl,
    hbloom.toBytes_ofBytes _ rfl⟩

end AppearanceIndex
