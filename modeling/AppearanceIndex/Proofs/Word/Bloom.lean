import AppearanceIndex.Proofs.Bloom.Answer
import AppearanceIndex.Proofs.Word.Shards

/-!
# Bloom files in words

Opening a bloom file and testing for an address, with bits and blocks as words of 32 bits, offsets
as words of 64 and masks as words of 8. The bits of an address are below `Bloom.blockBits`, so that
the index of the byte from the end is not below zero; the number of blocks is a signed word that is
not negative, so that no offset is too large.
-/

namespace AppearanceIndex

open Word

theorem Address.wordAt_lt (a : Address) (i : Nat) : a.wordAt i < 2 ^ 32 := by
  have hlength : ((a.toBytes.drop (4 * i)).take 4).length ≤ 4 := by
    rw [List.length_take]
    exact Nat.min_le_left _ _
  have hle : Bytes.capacity ((a.toBytes.drop (4 * i)).take 4).length ≤ Bytes.capacity 4 :=
    Nat.pow_le_pow_right (by decide) hlength
  exact Nat.lt_of_lt_of_le (Bytes.ofBigEndian_lt _) hle

/-! ## Bits -/

namespace Bloom

def bitsOf? (address : Address) : Option (List (BitVec 32)) :=
  address.words.mapM fun word => mod? (BitVec.ofNat 32 word) (BitVec.ofNat 32 blockBits)

/-- The index of the byte that holds a bit, and the mask of the bit in it. -/
def bitPosition? (bit : BitVec 32) : Option (BitVec 64 × BitVec 8) := do
  let last ← sub? (BitVec.ofNat 64 bitsetWidth) 1
  let byte ← div? bit 8
  let index ← sub? last (wide byte)
  let place ← mod? bit 8
  let mask ← shiftLeft? (1 : BitVec 8) place.toNat
  return (index, mask)

theorem bitsOf?_eq (address : Address) :
    ∃ bits, bitsOf? address = some bits ∧ bits.map BitVec.toNat = bitsOf address := by
  unfold bitsOf? bitsOf
  rw [address.words_eq]
  refine exists_mapM_eq_some fun word hword => ?_
  obtain ⟨i, -, rfl⟩ := List.mem_map.mp hword
  have hword : (BitVec.ofNat 32 (address.wordAt i)).toNat = address.wordAt i :=
    toNat_ofNat_of_lt (address.wordAt_lt i)
  have hmod : Is (mod? (BitVec.ofNat 32 (address.wordAt i)) (BitVec.ofNat 32 blockBits))
      (address.wordAt i % blockBits) := is_mod? (by rw [hword]; rfl) (by decide)
  exact hmod

theorem shift_eq_bitMask : ∀ place < 8, shiftLeft? (1 : BitVec 8) place =
    some (1 <<< UInt8.ofNat place : UInt8).toBitVec := by decide

theorem bitPosition?_eq {bit : BitVec 32} (h : bit.toNat < blockBits) :
    ∃ index, bitPosition? bit = some (index, (bitMask bit.toNat).toBitVec) ∧
      index.toNat = byteIndex bit.toNat := by
  have hbit : bit.toNat / 8 ≤ bitsetWidth - 1 := by
    unfold blockBits at h
    unfold bitsetWidth
    omega
  obtain ⟨last, hlast?, hlast⟩ := is_iff.mp
    (is_sub? (x := BitVec.ofNat 64 bitsetWidth) (y := 1) (n := bitsetWidth - 1) rfl)
  obtain ⟨byte, hbyte?, hbyte⟩ := is_iff.mp
    (is_div? (x := bit) (y := 8) (n := bit.toNat / 8) rfl (by decide))
  have hindex : Is (sub? last (wide byte)) (byteIndex bit.toNat) := is_sub? (by
    unfold byteIndex
    rw [toNat_wide, hlast, hbyte]
    omega)
  obtain ⟨index, hindex?, hindex⟩ := is_iff.mp hindex
  obtain ⟨place, hplace?, hplace⟩ := is_iff.mp
    (is_mod? (x := bit) (y := 8) (n := bit.toNat % 8) rfl (by decide))
  have hmask := shift_eq_bitMask _ (Nat.mod_lt bit.toNat (show 0 < 8 by decide))
  refine ⟨index, ?_, hindex⟩
  simp only [bitPosition?, hlast?, hbyte?, hindex?, hplace?, hplace, hmask, bind, Option.bind]
  rfl

end Bloom

namespace BloomFile

/-! ## Opening -/

def validate? (range : BlockRange) (header : BloomHeader) (count : BitVec 32)
    (size : Reading Nat) : OptionT Reading Nat :=
  if header.magic ≠ BloomHeader.bloomMagic then
    liftM (throw (.malformed .bloom range (.badMagic 2 header.magic.toNat)) : Reading Nat)
  else if count.toInt < 0 then
    liftM (throw (.malformed .bloom range (.negativeBlockCount count.toInt)) : Reading Nat)
  else do
    let size ← liftM size
    let needed ← checked (number?
      (offset? (BitVec.ofNat 64 BloomHeader.blocksStart) count BloomHeader.blockWidth))
    if size < needed then
      liftM (throw (.malformed .bloom range (.blocksTooLong count.toNat needed size)) :
        Reading Nat)
    else
      return count.toNat

def openNamed? (source : SeekableSource) (name : String) : OptionT Reading BloomFile := do
  let range ← liftM (ExceptT.mk (pure (BlockRange.ofName name)) : Reading BlockRange)
  liftM (source.seekTo .seekBloomHeader 0)
  let bs ← liftM
    (source.readWith (.ofHeaderRead .bloom range .readBloomHeader) BloomHeader.blocksStart)
  let header := BloomHeader.ofBytes bs
  let count := (UInt32.ofNat (bs.wordAt BloomHeader.width 4)).toBitVec
  let blockCount ← validate? range header count (source.seekEnd .seekBloomEnd)
  return { source, range, header, blockCount }

theorem is_needed? (count : BitVec 32) :
    Is (offset? (BitVec.ofNat 64 BloomHeader.blocksStart) count BloomHeader.blockWidth)
      (BloomHeader.blocksStart + count.toNat * BloomHeader.blockWidth) := by
  have hcount := count.isLt
  refine is_offset? rfl (by decide) ?_
  simp only [BloomHeader.blocksStart, BloomHeader.blockWidth]
  omega

theorem validate?_eq (range : BlockRange) (header : BloomHeader) (count : BitVec 32)
    (size : Reading Nat) :
    validate? range header count size = liftM (validate range header count.toInt size) := by
  have hneeded := is_needed? count
  unfold validate? validate
  by_cases hmagic : header.magic ≠ BloomHeader.bloomMagic
  · rw [if_pos hmagic, if_pos hmagic]
    rfl
  · rw [if_neg hmagic, if_neg hmagic]
    by_cases hneg : count.toInt < 0
    · simp only [if_pos hneg]
      rfl
    · have hcount : count.toInt.toNat = count.toNat := by
        rw [BitVec.toInt_eq_toNat_cond] at hneg ⊢
        split at hneg <;> omega
      simp only [if_neg hneg, hcount, liftM_bind]
      refine bind_congr fun total => ?_
      rw [hneeded, checked_some, pure_bind]
      split
      · rfl
      · rfl

theorem openNamed?_eq (source : SeekableSource) (name : String) :
    openNamed? source name = liftM (openNamed source name) := by
  unfold openNamed? openNamed
  simp only [validate?_eq, liftM_bind, liftM_pure]
  rfl

/-! ## Testing -/

def bitsetStart? (block : BitVec 32) : Option (BitVec 64) := do
  let start ← offset? (BitVec.ofNat 64 BloomHeader.blocksStart) block BloomHeader.blockWidth
  add? start 4

def blockHasBits? (bloom : BloomFile) (start : BitVec 64) :
    List (BitVec 32) → OptionT Reading Bool
  | [] => return true
  | bit :: bits => do
    let (index, mask) ← checked (Bloom.bitPosition? bit)
    let offset ← checked (number? (add? start index))
    liftM (bloom.source.seekTo .seekBloomByte offset)
    let bs ← liftM (bloom.source.readNext .readBloomByte 1)
    if bs.headD 0 &&& ⟨mask⟩ ≠ 0 then bloom.blockHasBits? start bits else return false

def anyBlockHasBits? (bloom : BloomFile) (bits : List (BitVec 32)) :
    (blocks : List (BitVec 32)) → OptionT Reading Bool
  | [] => return false
  | block :: blocks => do
    let start ← checked (bitsetStart? block)
    if ← bloom.blockHasBits? start bits then return true else bloom.anyBlockHasBits? bits blocks

def isMember? (bloom : BloomFile) (address : Address) : OptionT Reading Bool := do
  let bits ← checked (Bloom.bitsOf? address)
  bloom.anyBlockHasBits? bits ((List.range bloom.blockCount).map (BitVec.ofNat 32))

variable (bloom : BloomFile)

theorem is_bitsetStart? (block : BitVec 32) :
    Is (bitsetStart? block) (bitsetStart block.toNat) := by
  have hblock := block.isLt
  refine (is_needed? block).bind fun start hstart => is_add? (by rw [hstart]; rfl) ?_
  simp only [bitsetStart, BloomHeader.blocksStart, BloomHeader.blockWidth]
  omega

theorem bitsetStart_add_lt (block : BitVec 32) {index : Nat} (h : index < 2 ^ 32) :
    bitsetStart block.toNat + index < 2 ^ 64 := by
  have hblock := block.isLt
  simp only [bitsetStart, BloomHeader.blocksStart, BloomHeader.blockWidth]
  omega

theorem blockHasBits?_eq {block : BitVec 32} {start : BitVec 64}
    (hstart : start.toNat = bitsetStart block.toNat) {bits : List (BitVec 32)}
    (hbits : ∀ bit ∈ bits, bit.toNat < Bloom.blockBits) :
    bloom.blockHasBits? start bits =
      liftM (bloom.blockHasBits block.toNat (bits.map BitVec.toNat)) := by
  induction bits with
  | nil => rfl
  | cons bit bits ih =>
    rw [List.forall_mem_cons] at hbits
    obtain ⟨index, hposition, hindex⟩ := Bloom.bitPosition?_eq hbits.1
    have hoffset : number? (add? start index) =
        some (bitsetStart block.toNat + Bloom.byteIndex bit.toNat) := by
      refine is_add? (by rw [hstart, hindex]) (bitsetStart_add_lt block ?_)
      exact Nat.lt_trans (Bloom.byteIndex_lt bit.toNat) (by decide)
    rw [List.map_cons]
    unfold blockHasBits? blockHasBits
    rw [hposition, checked_some, pure_bind]
    simp only [hoffset, checked_some, pure_bind, liftM_bind]
    refine bind_congr fun _ => bind_congr fun bs => ?_
    by_cases hset : bs.headD 0 &&& Bloom.bitMask bit.toNat ≠ 0
    · have hyes : Bloom.isSet (bs.headD 0) bit.toNat = true := decide_eq_true hset
      rw [if_pos hset, if_pos hyes]
      exact ih hbits.2
    · have hno : Bloom.isSet (bs.headD 0) bit.toNat = false := decide_eq_false hset
      rw [if_neg hset, hno]
      rfl

theorem anyBlockHasBits?_eq {bits : List (BitVec 32)}
    (hbits : ∀ bit ∈ bits, bit.toNat < Bloom.blockBits) {block count : Nat}
    (h : block + count ≤ 2 ^ 32) :
    bloom.anyBlockHasBits? bits ((List.range' block count).map (BitVec.ofNat 32)) =
      liftM (bloom.anyBlockHasBits (bits.map BitVec.toNat) block count) := by
  induction count generalizing block with
  | zero => rfl
  | succ count ih =>
    have hblock : (BitVec.ofNat 32 block).toNat = block := toNat_ofNat_of_lt (by omega)
    obtain ⟨start, hstart?, hstart⟩ := is_iff.mp (is_bitsetStart? (BitVec.ofNat 32 block))
    rw [List.range'_succ, List.map_cons]
    unfold anyBlockHasBits? anyBlockHasBits
    rw [hstart?, checked_some, pure_bind, bloom.blockHasBits?_eq hstart hbits, hblock, liftM_bind]
    refine bind_congr fun found => ?_
    cases found with
    | true => rfl
    | false => exact ih (by omega)

theorem isMember?_eq (h : bloom.blockCount < 2 ^ 31) (address : Address) :
    bloom.isMember? address = liftM (bloom.isMember address) := by
  obtain ⟨bits, hsome, hbits⟩ := Bloom.bitsOf?_eq address
  have hlt : ∀ bit ∈ bits, bit.toNat < Bloom.blockBits := by
    intro bit hbit
    have hmem : bit.toNat ∈ Bloom.bitsOf address := hbits ▸ List.mem_map_of_mem hbit
    exact Bloom.lt_of_mem_bitsOf hmem
  unfold isMember? isMember
  rw [hsome, checked_some, pure_bind, List.range_eq_range', ← hbits]
  exact bloom.anyBlockHasBits?_eq hlt (by omega)

end BloomFile

end AppearanceIndex
