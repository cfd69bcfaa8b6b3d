import AppearanceIndex.Bloom.Builder
import AppearanceIndex.Proofs.Bloom.Lookup
import Mathlib.Algebra.Group.Nat.Defs
import Mathlib.Data.List.Induction

/-!
# Filters that were built

An insertion sets the bits of its address and no others, and none is ever taken back: a block keeps
having the bits of every address that was inserted into it (`BloomBlock.Has`), and some block of a
builder has the bits of each address that the builder was given. The bytes that a builder lays out
are admitted, unless it has more blocks than the count can tell, and they hold the addresses whose
bits one of its blocks has.
-/

namespace AppearanceIndex

/-! ## Bits -/

namespace Bloom

theorem and_or_right (a b c : UInt8) : (a ||| b) &&& c = a &&& c ||| b &&& c :=
  UInt8.toBitVec_inj.mp BitVec.and_or_distrib_right

theorem bitMask_and_bitMask (bit other : Nat) :
    bitMask other &&& bitMask bit ≠ 0 ↔ bit % 8 = other % 8 := by
  have hall : ∀ j < 8, ∀ k < 8,
      (1 : UInt8) <<< UInt8.ofNat k &&& 1 <<< UInt8.ofNat j ≠ 0 ↔ j = k := by decide
  exact hall _ (Nat.mod_lt _ (by decide)) _ (Nat.mod_lt _ (by decide))

theorem isSet_iff {byte : UInt8} {bit : Nat} :
    isSet byte bit = true ↔ byte &&& bitMask bit ≠ 0 := by
  unfold isSet
  exact decide_eq_true_iff

theorem isSet_or_bitMask (byte : UInt8) (bit other : Nat) :
    isSet (byte ||| bitMask other) bit = true ↔ isSet byte bit = true ∨ bit % 8 = other % 8 := by
  rw [isSet_iff, isSet_iff, ← bitMask_and_bitMask, and_or_right, ne_eq, UInt8.or_eq_zero_iff,
    Classical.not_and_iff_not_or_not]

/-- The bits of a block that stand in the same byte. -/
theorem byteIndex_eq_iff {bit other : Nat} (hb : bit < blockBits) (ho : other < blockBits) :
    byteIndex other = byteIndex bit ↔ bit / 8 = other / 8 := by
  have hbits : blockBits = 1048576 := rfl
  have hwidth : bitsetWidth = 131072 := rfl
  unfold byteIndex
  omega

theorem lt_of_mem_bitsOf {address : Address} {bit : Nat} (h : bit ∈ bitsOf address) :
    bit < blockBits := by
  obtain ⟨word, -, rfl⟩ := List.mem_map.mp h
  exact Nat.mod_lt _ (by decide)

def IsSetIn (bits : Vector UInt8 bitsetWidth) (bit : Nat) : Prop :=
  isSet (bits.toList.getD (byteIndex bit) 0) bit = true

end Bloom

namespace BloomBlock

theorem toList_setBit (bits : Vector UInt8 Bloom.bitsetWidth) (bit : Nat) :
    (setBit bits bit).toList = bits.toList.modify (Bloom.byteIndex bit) (· ||| Bloom.bitMask bit) :=
  Array.toList_modify

theorem getD_setBit (bits : Vector UInt8 Bloom.bitsetWidth) (bit i : Nat)
    (hi : i < Bloom.bitsetWidth) :
    (setBit bits bit).toList.getD i 0 =
      if Bloom.byteIndex bit = i then bits.toList.getD i 0 ||| Bloom.bitMask bit
      else bits.toList.getD i 0 := by
  have hlength : i < bits.toList.length := by simpa using hi
  rw [toList_setBit, List.getD_eq_getElem?_getD, List.getD_eq_getElem?_getD, List.getElem?_modify,
    List.getElem?_eq_getElem hlength]
  split <;> simp_all

/-- Setting a bit sets no other. -/
theorem isSetIn_setBit (bits : Vector UInt8 Bloom.bitsetWidth) {bit other : Nat}
    (hb : bit < Bloom.blockBits) (ho : other < Bloom.blockBits) :
    Bloom.IsSetIn (setBit bits other) bit ↔ Bloom.IsSetIn bits bit ∨ bit = other := by
  unfold Bloom.IsSetIn
  rw [getD_setBit _ _ _ (Bloom.byteIndex_lt bit)]
  split
  · next hbyte =>
    rw [Bloom.byteIndex_eq_iff hb ho] at hbyte
    rw [Bloom.isSet_or_bitMask]
    refine or_congr_right ?_
    omega
  · next hbyte =>
    have hne : bit ≠ other := fun heq => hbyte (by rw [heq])
    rw [or_iff_left hne]

theorem isSetIn_foldl (bits : Vector UInt8 Bloom.bitsetWidth) {bit : Nat} {new : List Nat}
    (hb : bit < Bloom.blockBits) (hn : ∀ other ∈ new, other < Bloom.blockBits) :
    Bloom.IsSetIn (new.foldl setBit bits) bit ↔ Bloom.IsSetIn bits bit ∨ bit ∈ new := by
  induction new generalizing bits with
  | nil => simp
  | cons other new ih =>
    have hrest := ih (setBit bits other) fun b hmem => hn b (List.mem_cons_of_mem _ hmem)
    rw [List.foldl_cons, hrest, isSetIn_setBit bits hb (hn other List.mem_cons_self), or_assoc,
      List.mem_cons]

/-- An insertion sets the bits of the address. -/
theorem isSetIn_insert (b : BloomBlock) (address : Address) {bit : Nat}
    (hb : bit < Bloom.blockBits) :
    Bloom.IsSetIn (b.insert address).bits bit ↔
      Bloom.IsSetIn b.bits bit ∨ bit ∈ Bloom.bitsOf address :=
  isSetIn_foldl b.bits hb fun _ => Bloom.lt_of_mem_bitsOf

def Has (b : BloomBlock) (address : Address) : Prop :=
  ∀ bit ∈ Bloom.bitsOf address, Bloom.IsSetIn b.bits bit

theorem has_insert (b : BloomBlock) (address : Address) : (b.insert address).Has address :=
  fun _ hbit => (isSetIn_insert b address (Bloom.lt_of_mem_bitsOf hbit)).mpr (.inr hbit)

theorem Has.insert {b : BloomBlock} {address : Address} (h : b.Has address) (other : Address) :
    (b.insert other).Has address :=
  fun bit hbit => (isSetIn_insert b other (Bloom.lt_of_mem_bitsOf hbit)).mpr (.inl (h bit hbit))

theorem length_toBytes (b : BloomBlock) : b.toBytes.length = BloomHeader.blockWidth := by
  unfold toBytes
  rw [List.length_append, Bytes.length_littleEndian, Vector.length_toList]
  rfl

end BloomBlock

/-! ## Blocks -/

namespace BloomBuilder

def Covers (b : BloomBuilder) (address : Address) : Prop := ∃ block ∈ b.newest, block.Has address

theorem covers_insert (b : BloomBuilder) (address : Address) :
    (b.insert address).Covers address := by
  unfold insert Covers
  split
  · split
    · exact ⟨_, List.mem_cons_self, BloomBlock.has_insert _ address⟩
    · exact ⟨_, List.mem_cons_self, BloomBlock.has_insert _ address⟩
  · exact ⟨_, List.mem_cons_self, BloomBlock.has_insert _ address⟩

theorem Covers.insert {b : BloomBuilder} {address : Address} (h : b.Covers address)
    (other : Address) : (b.insert other).Covers address := by
  obtain ⟨block, hmem, hhas⟩ := h
  unfold BloomBuilder.insert
  cases hnewest : b.newest with
  | nil =>
    rw [hnewest] at hmem
    cases hmem
  | cons first older =>
    rw [hnewest] at hmem
    dsimp only
    split
    · rcases List.mem_cons.mp hmem with rfl | hmem
      · exact ⟨_, List.mem_cons_self, hhas.insert other⟩
      · exact ⟨block, List.mem_cons_of_mem _ hmem, hhas⟩
    · exact ⟨block, List.mem_cons_of_mem _ hmem, hhas⟩

theorem ofList_append_single (capacity : Nat) (addresses : List Address) (address : Address) :
    ofList capacity (addresses ++ [address]) = (ofList capacity addresses).insert address := by
  unfold ofList
  rw [List.foldl_append]
  rfl

/-- A builder covers every address that it was given. -/
theorem covers_ofList (capacity : Nat) {addresses : List Address} {address : Address}
    (h : address ∈ addresses) : (ofList capacity addresses).Covers address := by
  induction addresses using List.reverseRecOn with
  | nil => cases h
  | append_singleton addresses last ih =>
    rw [ofList_append_single]
    rcases List.mem_append.mp h with h | h
    · exact (ih h).insert last
    · rw [List.mem_singleton.mp h]
      exact covers_insert _ last

/-! ## The bytes -/

section Build

variable {b : BloomBuilder}

theorem build_eq (b : BloomBuilder) : b.build =
    Bytes.littleEndian 2 BloomHeader.bloomMagic.toNat ++
      ((Vector.replicate 32 0).toList ++
        (Bytes.littleEndian 4 b.blocks.length ++ b.blocks.flatMap BloomBlock.toBytes)) := by
  unfold build BloomHeader.toBytes
  rw [List.append_assoc, List.append_assoc]

theorem length_build (b : BloomBuilder) : b.build.length =
    BloomHeader.blocksStart + b.blocks.length * BloomHeader.blockWidth := by
  rw [build_eq, List.length_append, List.length_append, List.length_append,
    Bytes.length_flatMap_encode BloomBlock.length_toBytes, Bytes.length_littleEndian,
    Bytes.length_littleEndian, Vector.length_toList, BloomHeader.blocksStart]
  omega

theorem blockCount_build (h : b.blocks.length < 2 ^ 31) :
    Bloom.blockCount b.build = b.blocks.length := by
  have hfront : (Bytes.littleEndian 2 BloomHeader.bloomMagic.toNat ++
      (Vector.replicate 32 (0 : UInt8)).toList).length = BloomHeader.width := by
    rw [List.length_append, Bytes.length_littleEndian, Vector.length_toList]
    rfl
  have hword : b.build.wordAt BloomHeader.width 4 = b.blocks.length := by
    rw [build_eq, ← List.append_assoc,
      Bytes.wordAt_append _ _ _ hfront (Bytes.length_littleEndian _ _)]
    refine Bytes.ofLittleEndian_littleEndian_of_lt ?_
    have hcapacity : Bytes.capacity 4 = 4294967296 := rfl
    rw [hcapacity]
    omega
  unfold Bloom.blockCount BloomHeader.blockCount
  rw [hword]
  exact Int32.toInt_ofNat_of_lt h

/-- The bytes of a builder are those of a bloom file. -/
theorem admitted_build (h : b.blocks.length < 2 ^ 31) : Bloom.Admitted b.build := by
  have hlength := b.length_build
  refine ⟨by omega, ?_, ?_, ?_⟩
  · have hmagic : b.build.wordAt 0 2 = BloomHeader.bloomMagic.toNat := by
      rw [build_eq]
      refine (Bytes.wordAt_append [] _ _ rfl (Bytes.length_littleEndian _ _)).trans ?_
      exact Bytes.ofLittleEndian_littleEndian_of_lt (by decide)
    unfold Bloom.header BloomHeader.ofBytes
    rw [hmagic]
    rfl
  · rw [blockCount_build h]
    exact Int.natCast_nonneg _
  · refine Nat.le_of_eq ?_
    rw [blockCount_build h, Int.toNat_natCast, hlength]

theorem byteAt_build {i bit : Nat} {block : BloomBlock} (h : b.blocks[i]? = some block) :
    Bloom.byteAt b.build i bit = block.bits.toList.getD (Bloom.byteIndex bit) 0 := by
  have hindex : Bloom.byteIndex bit < 131072 := Bloom.byteIndex_lt bit
  have hfront : (Bytes.littleEndian 2 BloomHeader.bloomMagic.toNat ++
      ((Vector.replicate 32 (0 : UInt8)).toList ++ Bytes.littleEndian 4 b.blocks.length)).length =
        BloomHeader.blocksStart := by
    simp [BloomHeader.blocksStart]
  have hbits : (Bytes.littleEndian 4 block.inserted).length = 4 := Bytes.length_littleEndian _ _
  unfold Bloom.byteAt BloomFile.bitsetStart
  rw [build_eq, List.getD_eq_getElem?_getD, List.getD_eq_getElem?_getD, ← List.append_assoc,
    ← List.append_assoc, List.append_assoc (Bytes.littleEndian 2 _), Nat.add_assoc, Nat.add_assoc,
    List.getElem?_append_right (by omega), hfront, Nat.add_sub_cancel_left,
    Bytes.getElem?_flatMap_encode BloomBlock.length_toBytes h
      (show 4 + Bloom.byteIndex bit < 131076 by omega)]
  unfold BloomBlock.toBytes
  rw [List.getElem?_append_right (by omega), hbits, Nat.add_sub_cancel_left]

theorem blockHolds_build {i : Nat} {block : BloomBlock} (h : b.blocks[i]? = some block)
    (address : Address) :
    Bloom.blockHolds b.build (Bloom.bitsOf address) i = true ↔ block.Has address := by
  unfold Bloom.blockHolds BloomBlock.Has Bloom.IsSetIn
  rw [List.all_eq_true]
  simp only [byteAt_build h]

/-- The bytes of a builder hold the addresses that it covers. -/
theorem holds_build (h : b.blocks.length < 2 ^ 31) (address : Address) :
    Bloom.holds b.build address = true ↔ b.Covers address := by
  unfold Bloom.holds Covers
  rw [blockCount_build h, Int.toNat_natCast, List.any_eq_true]
  constructor
  · rintro ⟨i, hi, hholds⟩
    have hblock := List.getElem?_eq_getElem (List.mem_range.mp hi)
    exact ⟨_, List.mem_reverse.mp (List.mem_of_getElem? hblock),
      (blockHolds_build hblock address).mp hholds⟩
  · rintro ⟨block, hmem, hhas⟩
    obtain ⟨i, hi⟩ := List.getElem?_of_mem (List.mem_reverse.mpr hmem)
    have hlt : i < b.blocks.length := (List.getElem?_eq_some_iff.mp hi).1
    exact ⟨i, List.mem_range.mpr hlt, (blockHolds_build hi address).mpr hhas⟩

end Build

end BloomBuilder

end AppearanceIndex
