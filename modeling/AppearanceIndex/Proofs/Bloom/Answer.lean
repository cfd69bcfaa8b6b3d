import AppearanceIndex.Proofs.Bloom.Written

/-!
# What any bloom file answers

The answers of a file that nobody vouches for are read off its bytes. `Bloom.HasBit` says, offset
by offset, that a block has the bit of a word, and a file that can be opened says yes to an address
exactly if one of its blocks has the bits of all five words (`BloomFile.isMember_iff_bits`). The
digest, the counts of insertions and what stands behind the last block (`Bloom.Unread`) are no part
of that, so they may be anything.
-/

namespace AppearanceIndex

/-- The big-endian word of four bytes with a number, counted from the front. -/
def Address.wordAt (a : Address) (i : Nat) : Nat :=
  Bytes.ofBigEndian ((a.toBytes.drop (4 * i)).take 4)

theorem Address.words_eq (a : Address) : a.words = (List.range 5).map a.wordAt := by
  unfold words
  rw [Bytes.blocks_eq_map_range (by decide) (show a.toBytes.length = 5 * 4 from a.length_toBytes),
    List.map_map]
  refine List.map_congr_left fun i _ => ?_
  show Bytes.ofBigEndian ((a.toBytes.drop (i * 4)).take 4) = _
  rw [Nat.mul_comm]
  rfl

namespace Bloom

/-- The number of blocks, which stands behind the digest as a word of two's complement. -/
def declaredBlocks (bs : Bytes) : Int := Int.bmod (bs.wordAt 34 4) 4294967296

/-- Where the byte stands that holds the bit of a word in a block. -/
def bitOffset (block word : Nat) : Nat :=
  38 + 131076 * block + 4 + (131071 - word % 1048576 / 8)

def HasBit (bs : Bytes) (block word : Nat) : Prop :=
  ∃ byte, bs[bitOffset block word]? = some byte ∧
    byte.toNat.testBit (word % 1048576 % 8) = true

/-- The digest, the counts of insertions and what stands behind the last block. -/
def Unread (bs : Bytes) (offset : Nat) : Prop :=
  (2 ≤ offset ∧ offset < 34) ∨
    (∃ block < (declaredBlocks bs).toNat,
      38 + 131076 * block ≤ offset ∧ offset < 38 + 131076 * block + 4) ∨
    38 + 131076 * (declaredBlocks bs).toNat ≤ offset

variable {bs other : Bytes}

theorem blockCount_eq (bs : Bytes) : blockCount bs = declaredBlocks bs := by
  have hlt : bs.wordAt 34 4 < 4294967296 := bs.wordAt_lt 34 4
  have hword : (UInt32.ofNat (bs.wordAt BloomHeader.width 4)).toNat = bs.wordAt 34 4 :=
    UInt32.toNat_ofNat_of_lt' hlt
  show (UInt32.ofNat (bs.wordAt BloomHeader.width 4)).toBitVec.toInt = _
  rw [BitVec.toInt_eq_toNat_bmod, UInt32.toNat_toBitVec, hword]
  rfl

theorem magic_eq_iff : (header bs).magic = BloomHeader.bloomMagic ↔ bs.wordAt 0 2 = 0xdead := by
  have hlt : bs.wordAt 0 2 < 65536 := bs.wordAt_lt 0 2
  have hword : (header bs).magic.toNat = bs.wordAt 0 2 := UInt16.toNat_ofNat_of_lt' hlt
  have hmagic : BloomHeader.bloomMagic.toNat = 0xdead := by decide
  rw [← UInt16.toNat_inj, hword, hmagic]

theorem admitted_iff : Admitted bs ↔
    38 ≤ bs.length ∧ bs.wordAt 0 2 = 0xdead ∧ 0 ≤ declaredBlocks bs ∧
      38 + 131076 * (declaredBlocks bs).toNat ≤ bs.length := by
  unfold Admitted
  rw [magic_eq_iff, blockCount_eq, Nat.mul_comm _ BloomHeader.blockWidth]
  rfl

/-! ## Bits -/

theorem isSet_iff_testBit (byte : UInt8) (bit : Nat) :
    isSet byte bit = true ↔ byte.toNat.testBit (bit % 8) = true := by
  have hall : ∀ j < 8, ∀ n < 256,
      UInt8.ofNat n &&& 1 <<< UInt8.ofNat j ≠ 0 ↔ n.testBit j = true := by decide +kernel
  have hbyte := hall (bit % 8) (Nat.mod_lt _ (by decide)) byte.toNat byte.toNat_lt
  rw [UInt8.ofNat_toNat] at hbyte
  exact isSet_iff.trans hbyte

theorem bitOffset_eq (block word : Nat) :
    BloomFile.bitsetStart block + byteIndex (word % blockBits) = bitOffset block word := by
  have hbits : blockBits = 1048576 := rfl
  have hwidth : bitsetWidth = 131072 := rfl
  have hstart : BloomHeader.blocksStart = 38 := rfl
  have hblock : BloomHeader.blockWidth = 131076 := rfl
  unfold BloomFile.bitsetStart byteIndex bitOffset
  rw [hbits, hwidth, hstart, hblock]
  omega

/-- The bits of a block lie behind its count of insertions and in front of the next block. -/
theorem bitOffset_bounds (block word : Nat) : 38 + 131076 * block + 4 ≤ bitOffset block word ∧
    bitOffset block word < 38 + 131076 * (block + 1) := by
  unfold bitOffset
  omega

theorem hasBit_iff (h : Admitted bs) {block : Nat} (hb : block < (declaredBlocks bs).toNat)
    (word : Nat) : HasBit bs block word ↔
      isSet (byteAt bs block (word % blockBits)) (word % blockBits) = true := by
  rw [← blockCount_eq] at hb
  have hlt : bitOffset block word < bs.length := by
    rw [← bitOffset_eq]
    exact h.byte_le hb (word % blockBits)
  have hbyte : byteAt bs block (word % blockBits) = bs[bitOffset block word] := by
    unfold byteAt
    rw [bitOffset_eq, List.getD_eq_getElem?_getD, List.getElem?_eq_getElem hlt, Option.getD_some]
  unfold HasBit
  rw [isSet_iff_testBit, hbyte, List.getElem?_eq_getElem hlt]
  simp only [Option.some.injEq, exists_eq_left']
  rfl

/-- An admitted file holds the addresses that have all their bits in one block. -/
theorem holds_iff (h : Admitted bs) (address : Address) : holds bs address = true ↔
    ∃ block < (declaredBlocks bs).toNat, ∀ i < 5, HasBit bs block (address.wordAt i) := by
  unfold holds
  rw [List.any_eq_true, blockCount_eq]
  refine exists_congr fun block => ?_
  rw [List.mem_range]
  refine and_congr_right fun hb => ?_
  unfold blockHolds bitsOf
  rw [List.all_eq_true, Address.words_eq]
  simp only [List.mem_map, List.mem_range, forall_exists_index, and_imp, forall_apply_eq_imp_iff₂]
  exact forall₂_congr fun i _ => (hasBit_iff h hb _).symm

/-! ## What no answer depends on -/

theorem not_unread_bitOffset {block : Nat} (hb : block < (declaredBlocks bs).toNat) (word : Nat) :
    ¬ Unread bs (bitOffset block word) := by
  obtain ⟨hlow, hhigh⟩ := bitOffset_bounds block word
  rintro (hdigest | ⟨before, -, hfirst, hlast⟩ | hbehind) <;> omega

section Agreeing

variable (h : ∀ offset, ¬ Unread bs offset → other[offset]? = bs[offset]?)

include h

theorem declaredBlocks_of_agree : declaredBlocks other = declaredBlocks bs := by
  have hword : other.wordAt 34 4 = bs.wordAt 34 4 := by
    refine Bytes.wordAt_congr fun i hi => h _ ?_
    rintro (hdigest | ⟨block, -, hfirst, hlast⟩ | hbehind) <;> omega
  unfold declaredBlocks
  rw [hword]

theorem length_of_agree (hl : 38 + 131076 * (declaredBlocks bs).toNat ≤ bs.length) :
    38 + 131076 * (declaredBlocks bs).toNat ≤ other.length := by
  have hlast : ¬ Unread bs (38 + 131076 * (declaredBlocks bs).toNat - 1) := by
    rintro (hdigest | ⟨block, hb, hfirst, hlast⟩ | hbehind) <;> omega
  have hsome := h _ hlast
  rw [List.getElem?_eq_getElem (show _ - 1 < bs.length by omega)] at hsome
  obtain ⟨hlt, -⟩ := List.getElem?_eq_some_iff.mp hsome
  omega

theorem admitted_of_agree (ha : Admitted bs) : Admitted other := by
  rw [admitted_iff] at ha ⊢
  obtain ⟨-, hmagic, hcount, hlength⟩ := ha
  have hword : other.wordAt 0 2 = bs.wordAt 0 2 := by
    refine Bytes.wordAt_congr fun i hi => h _ ?_
    rintro (hdigest | ⟨block, -, hfirst, hlast⟩ | hbehind) <;> omega
  have hsize := length_of_agree h hlength
  rw [declaredBlocks_of_agree h, hword]
  exact ⟨by omega, hmagic, hcount, hsize⟩

theorem holds_of_agree (ha : Admitted bs) (address : Address) :
    holds other address = holds bs address := by
  rw [Bool.eq_iff_iff, holds_iff (admitted_of_agree h ha), holds_iff ha, declaredBlocks_of_agree h]
  refine exists_congr fun block => and_congr_right fun hb => forall₂_congr fun i _ => ?_
  unfold HasBit
  rw [h _ (not_unread_bitOffset hb _)]

end Agreeing

end Bloom

namespace BloomFile

/-- Bytes are opened as a bloom file exactly if they hold a header with the magic number and as many
blocks as a count that is not negative declares. Then no test fails, and the answer is yes exactly
if one block has the bits of all five words of the address. Bytes that differ only where no bit and
no part of the check stands are opened as well, and give the same answers. -/
theorem isMember_iff_bits (bs : Bytes) {name : String} {range : BlockRange}
    (hn : BlockRange.parse? name = some range) (cursor : Nat) :
    ((∃ file, ((openNamed (.ofBytes bs) name).run cursor).1 = .ok file) ↔
        38 ≤ bs.length ∧ bs.wordAt 0 2 = 0xdead ∧ 0 ≤ Bloom.declaredBlocks bs ∧
          38 + 131076 * (Bloom.declaredBlocks bs).toNat ≤ bs.length) ∧
      ∀ file, ((openNamed (.ofBytes bs) name).run cursor).1 = .ok file →
        file.range = range ∧ file.blockCount = (Bloom.declaredBlocks bs).toNat ∧
        (∀ address, ∃ answer, (file.isMember address).Gives (.ok answer) ∧
          (answer = true ↔ ∃ block < file.blockCount, ∀ i < 5,
            Bloom.HasBit bs block (address.wordAt i))) ∧
        ∀ other, (∀ offset, ¬ Bloom.Unread bs offset → other[offset]? = bs[offset]?) →
          ∃ changed, (openNamed (.ofBytes other) name).Gives (.ok changed) ∧
            ∀ address answer, (file.isMember address).Gives (.ok answer) ↔
              (changed.isMember address).Gives (.ok answer) := by
  refine ⟨?_, fun file hopen => ?_⟩
  · rw [← Bloom.admitted_iff]
    constructor
    · rintro ⟨file, hopen⟩
      obtain ⟨-, -, hadmitted, -⟩ := eq_of_openNamed_ofBytes hopen
      exact hadmitted
    · intro hadmitted
      exact ⟨_, openNamed_ofBytes hn hadmitted cursor⟩
  · obtain ⟨range', hn', hadmitted, rfl⟩ := eq_of_openNamed_ofBytes hopen
    obtain rfl := Option.some.inj (hn.symm.trans hn')
    have hcount : (ofBytes bs range).blockCount = (Bloom.declaredBlocks bs).toNat :=
      congrArg Int.toNat (Bloom.blockCount_eq bs)
    refine ⟨rfl, hcount, fun address => ?_, fun other hagree => ?_⟩
    · rw [hcount]
      exact ⟨_, isMember_ofBytes hadmitted address, Bloom.holds_iff hadmitted address⟩
    · have hother := Bloom.admitted_of_agree hagree hadmitted
      refine ⟨_, openNamed_ofBytes hn hother, fun address answer => ?_⟩
      have htest : ((ofBytes bs range).isMember address).Gives _ :=
        isMember_ofBytes hadmitted address
      have hsame : ((ofBytes other range).isMember address).Gives _ :=
        isMember_ofBytes hother address
      rw [Bloom.holds_of_agree hagree hadmitted] at hsame
      constructor
      · intro hanswer
        rwa [htest.result_eq hanswer] at hsame
      · intro hanswer
        rwa [hsame.result_eq hanswer] at htest

/-! ### A sample -/

def oneBlockHeader (digest : UInt8) : Bytes :=
  BloomHeader.toBytes ⟨BloomHeader.bloomMagic, Vector.replicate 32 digest⟩ ++
    Bytes.littleEndian 4 1

/-- A file of one block in which every bit is set. -/
def fullBlock (digest : UInt8) (inserted : Nat) (tail : Bytes) : Bytes :=
  oneBlockHeader digest ++
    (Bytes.littleEndian 4 inserted ++ (List.replicate Bloom.bitsetWidth 255 ++ tail))

section FullBlock

variable (digest : UInt8) (inserted : Nat) (tail : Bytes)

theorem length_oneBlockHeader : (oneBlockHeader digest).length = 38 := by
  simp [oneBlockHeader, BloomHeader.toBytes]

theorem length_fullBlock : (fullBlock digest inserted tail).length = 131114 + tail.length := by
  unfold fullBlock
  rw [List.length_append, List.length_append, List.length_append, List.length_replicate,
    Bytes.length_littleEndian, length_oneBlockHeader, Bloom.bitsetWidth]
  omega

theorem take_fullBlock : (fullBlock digest inserted tail).take 38 = oneBlockHeader digest :=
  List.take_left' (length_oneBlockHeader digest)

theorem declaredBlocks_fullBlock : Bloom.declaredBlocks (fullBlock digest inserted tail) = 1 := by
  have hfront : (BloomHeader.toBytes ⟨BloomHeader.bloomMagic, Vector.replicate 32 digest⟩).length =
      34 := by simp [BloomHeader.toBytes]
  unfold Bloom.declaredBlocks fullBlock oneBlockHeader
  rw [List.append_assoc, Bytes.wordAt_append _ _ _ hfront (Bytes.length_littleEndian _ _)]
  decide

theorem getElem?_fullBlock {i : Nat} (h : i < 131072) :
    (fullBlock digest inserted tail)[42 + i]? = some 255 := by
  have hfront := length_oneBlockHeader digest
  have hwidth : Bloom.bitsetWidth = 131072 := rfl
  unfold fullBlock
  rw [List.getElem?_append_right (by omega), hfront,
    List.getElem?_append_right (by rw [Bytes.length_littleEndian]; omega),
    Bytes.length_littleEndian, List.getElem?_append_left (by rw [List.length_replicate]; omega),
    List.getElem?_replicate, if_pos (by omega)]

theorem hasBit_fullBlock (word : Nat) : Bloom.HasBit (fullBlock digest inserted tail) 0 word := by
  have hall : ∀ j < 8, (255 : UInt8).toNat.testBit j = true := by decide
  refine ⟨255, ?_, hall _ (Nat.mod_lt _ (by decide))⟩
  unfold Bloom.bitOffset
  exact getElem?_fullBlock digest inserted tail (by omega)

end FullBlock

/-- Only bytes that are not read differ. -/
theorem agree_fullBlock {offset : Nat} (h : ¬ Bloom.Unread (fullBlock 0 0 []) offset) :
    (fullBlock 7 50000 [1, 2])[offset]? = (fullBlock 0 0 [])[offset]? := by
  unfold Bloom.Unread at h
  rw [declaredBlocks_fullBlock] at h
  by_cases hfront : offset < 38
  · have hall : ∀ i < 38, ¬ (2 ≤ i ∧ i < 34) →
        (oneBlockHeader 7)[i]? = (oneBlockHeader 0)[i]? := by decide +kernel
    have hsame := hall offset hfront fun hdigest => h (.inl hdigest)
    rw [← take_fullBlock 7 50000 [1, 2], ← take_fullBlock 0 0 []] at hsame
    rwa [List.getElem?_take_of_lt hfront, List.getElem?_take_of_lt hfront] at hsame
  · have hlow : 42 ≤ offset := Nat.le_of_not_lt fun hlt =>
      h (.inr (.inl ⟨0, Nat.one_pos, by omega, by omega⟩))
    have hhigh : offset < 42 + 131072 := Nat.lt_of_not_le fun hle => h (.inr (.inr hle))
    obtain ⟨i, rfl⟩ := Nat.exists_eq_add_of_le hlow
    rw [getElem?_fullBlock _ _ _ (by omega), getElem?_fullBlock _ _ _ (by omega)]

theorem isMember_full_block :
    ∃ file changed, (openNamed (.ofBytes (fullBlock 0 0 [])) "10-19.bloom").fromStart = .ok file ∧
      (file.isMember (.ofNat 5)).Gives (.ok true) ∧
      (openNamed (.ofBytes (fullBlock 7 50000 [1, 2])) "10-19.bloom").Gives (.ok changed) ∧
      (changed.isMember (.ofNat 5)).Gives (.ok true) := by
  have hname : BlockRange.parse? "10-19.bloom" = some ⟨10, 19⟩ := by decide +kernel
  have hmagic : (fullBlock 0 0 []).wordAt 0 2 = 0xdead := by
    rw [← Bytes.wordAt_take (show 0 + 2 ≤ 38 by decide), take_fullBlock]
    decide +kernel
  have hcount := declaredBlocks_fullBlock 0 0 []
  have hlength := length_fullBlock 0 0 []
  obtain ⟨hopens, htests⟩ := isMember_iff_bits (fullBlock 0 0 []) hname 0
  rw [hlength, hmagic, hcount] at hopens
  obtain ⟨file, hopen⟩ := hopens.mpr (by decide)
  obtain ⟨-, hblocks, hanswers, hagrees⟩ := htests file hopen
  rw [hcount] at hblocks
  obtain ⟨answer, hgives, hanswer⟩ := hanswers (.ofNat 5)
  have hyes : answer = true := by
    refine hanswer.mpr ⟨0, ?_, fun i _ => hasBit_fullBlock 0 0 [] _⟩
    rw [hblocks]
    decide
  subst hyes
  obtain ⟨changed, hchanged, hsame⟩ := hagrees (fullBlock 7 50000 [1, 2]) fun _ => agree_fullBlock
  refine ⟨file, changed, ?_, hgives, hchanged, (hsame _ _).mp hgives⟩
  rw [Reading.fromStart]
  exact hopen

end BloomFile

end AppearanceIndex
