import AppearanceIndex.Bloom.Header
import AppearanceIndex.Proofs.Chunk.Codec

/-!
# Which byte stands where

Headers, records and appearances take a fixed number of bytes each. For each kind, `byteAt` says
which byte a value has at a position: numbers stand with their least significant byte first,
addresses with their most significant byte first, digests as they are. What is written has just
these bytes (`getElem?_toBytes`).
-/

namespace AppearanceIndex

namespace Bytes

/-- The byte of a number at a place; the least significant one is at place zero. -/
def place (n i : Nat) : UInt8 := UInt8.ofNat (n / capacity i)

theorem place_zero (n : Nat) : place n 0 = UInt8.ofNat (n % 256) := by
  unfold place
  rw [capacity_zero, Nat.div_one]
  exact UInt8.ofNat_mod_size.symm

theorem place_succ (n i : Nat) : place n (i + 1) = place (n / 256) i := by
  unfold place
  rw [capacity_succ, Nat.div_div_eq_div_mul]

theorem getElem?_littleEndian {width n i : Nat} (h : i < width) :
    (littleEndian width n)[i]? = some (place n i) := by
  induction width generalizing n i with
  | zero => cases h
  | succ width ih =>
    unfold littleEndian
    cases i with
    | zero => rw [List.getElem?_cons_zero, place_zero]
    | succ i => rw [List.getElem?_cons_succ, ih (Nat.lt_of_succ_lt_succ h), place_succ]

theorem getElem?_bigEndian {width n i : Nat} (h : i < width) :
    (bigEndian width n)[i]? = some (place n (width - 1 - i)) := by
  unfold bigEndian
  rw [List.getElem?_reverse (by rwa [length_littleEndian]), length_littleEndian,
    getElem?_littleEndian (by omega)]

theorem getElem?_toList {count i : Nat} (bytes : Vector UInt8 count) (h : i < count) :
    bytes.toList[i]? = some (bytes.toList.getD i 0) := by
  have hi : i < bytes.toList.length := by rwa [Vector.length_toList]
  rw [List.getD_eq_getElem?_getD, List.getElem?_eq_getElem hi, Option.getD_some]

/-- One field from `start` to `stop`, and what stands behind it. -/
theorem getElem?_field_append {field rest : Bytes} {start stop i : Nat} {b c : UInt8}
    (hs : start ≤ i) (hl : start + field.length = stop)
    (hfield : i < stop → field[i - start]? = some b)
    (hrest : stop ≤ i → rest[i - stop]? = some c) :
    (field ++ rest)[i - start]? = some (if i < stop then b else c) := by
  by_cases hi : i < stop
  · rw [if_pos hi, List.getElem?_append_left (by omega), hfield hi]
  · have hskip : i - start - field.length = i - stop := by omega
    rw [if_neg hi, List.getElem?_append_right (by omega), hskip, hrest (Nat.le_of_not_lt hi)]

end Bytes

open Bytes

namespace ChunkHeader

def byteAt (h : ChunkHeader) (i : Nat) : UInt8 :=
  if i < 4 then place h.magic.toNat i
  else if i < 36 then h.hash.toList.getD (i - 4) 0
  else if i < 40 then place h.addressCount.toNat (i - 36)
  else place h.appearanceCount.toNat (i - 40)

theorem getElem?_toBytes (h : ChunkHeader) {i : Nat} (hi : i < width) :
    h.toBytes[i]? = some (h.byteAt i) := by
  have hwidth : i < 44 := hi
  unfold toBytes byteAt
  simp only [List.append_assoc]
  -- one field after another is taken off the front, and positions still count from the first
  refine getElem?_field_append (Nat.zero_le i) (by simp) (fun _ => getElem?_littleEndian (by omega))
    fun hmagic => ?_
  refine getElem?_field_append hmagic (by simp) (fun _ => getElem?_toList _ (by omega))
    fun hhash => ?_
  refine getElem?_field_append hhash (by simp) (fun _ => getElem?_littleEndian (by omega))
    fun _ => ?_
  exact getElem?_littleEndian (by omega)

example : (toBytes ⟨chunkMagic, Vector.replicate 32 7, 2, 3⟩).take 5 =
    [0xef, 0xbe, 0xad, 0xde, 7] := by decide

end ChunkHeader

namespace BloomHeader

def byteAt (h : BloomHeader) (i : Nat) : UInt8 :=
  if i < 2 then place h.magic.toNat i else h.hash.toList.getD (i - 2) 0

@[simp] theorem length_toBytes (h : BloomHeader) : h.toBytes.length = width := by
  simp [toBytes, width]

theorem getElem?_toBytes (h : BloomHeader) {i : Nat} (hi : i < width) :
    h.toBytes[i]? = some (h.byteAt i) := by
  have hwidth : i < 34 := hi
  unfold toBytes byteAt
  refine getElem?_field_append (Nat.zero_le i) (by simp) (fun _ => getElem?_littleEndian (by omega))
    fun _ => ?_
  exact getElem?_toList _ (by omega)

end BloomHeader

namespace AddressRecord

def byteAt (r : AddressRecord) (i : Nat) : UInt8 :=
  if i < 20 then place r.address.toNat (19 - i)
  else if i < 24 then place r.offset.toNat (i - 20)
  else place r.count.toNat (i - 24)

theorem getElem?_toBytes (r : AddressRecord) {i : Nat}
    (hi : i < ChunkHeader.addressRecordWidth) : r.toBytes[i]? = some (r.byteAt i) := by
  have hwidth : i < 28 := hi
  unfold toBytes byteAt
  rw [List.append_assoc]
  refine getElem?_field_append (Nat.zero_le i) (by simp [Address.width])
    (fun haddress => getElem?_bigEndian haddress) fun haddress => ?_
  refine getElem?_field_append haddress (by simp) (fun _ => getElem?_littleEndian (by omega))
    fun _ => ?_
  exact getElem?_littleEndian (by omega)

end AddressRecord

namespace Appearance

def byteAt (a : Appearance) (i : Nat) : UInt8 :=
  if i < 4 then place a.block.toNat i else place a.transaction.toNat (i - 4)

theorem getElem?_toBytes (a : Appearance) {i : Nat} (hi : i < ChunkHeader.appearanceWidth) :
    a.toBytes[i]? = some (a.byteAt i) := by
  have hwidth : i < 8 := hi
  unfold toBytes byteAt
  refine getElem?_field_append (Nat.zero_le i) (by simp) (fun _ => getElem?_littleEndian (by omega))
    fun _ => ?_
  exact getElem?_littleEndian (by omega)

end Appearance

end AppearanceIndex
