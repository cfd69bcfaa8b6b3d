import AppearanceIndex.Bloom.File
import AppearanceIndex.Proofs.Chunk.Lookup

/-!
# Testing membership

What a bloom file says of an address is read off its bytes: `Bloom.holds` asks for one block in
which all bits of the address are set. Bytes that hold as many blocks as they declare
(`Bloom.Admitted`) are opened, and then no test fails.
-/

namespace AppearanceIndex

namespace Bloom

def header (bs : Bytes) : BloomHeader := BloomHeader.ofBytes bs

def blockCount (bs : Bytes) : Int := BloomHeader.blockCount bs

/-- The bytes hold the header of a bloom file and the blocks that it declares. -/
def Admitted (bs : Bytes) : Prop :=
  BloomHeader.blocksStart ≤ bs.length ∧ (header bs).magic = BloomHeader.bloomMagic ∧
    0 ≤ blockCount bs ∧
    BloomHeader.blocksStart + (blockCount bs).toNat * BloomHeader.blockWidth ≤ bs.length

def byteAt (bs : Bytes) (block bit : Nat) : UInt8 :=
  bs.getD (BloomFile.bitsetStart block + byteIndex bit) 0

def blockHolds (bs : Bytes) (bits : List Nat) (block : Nat) : Bool :=
  bits.all fun bit => isSet (byteAt bs block bit) bit

def holds (bs : Bytes) (address : Address) : Bool :=
  (List.range (blockCount bs).toNat).any (blockHolds bs (bitsOf address))

variable {bs : Bytes}

theorem ofBytes_take_header :
    BloomHeader.ofBytes (bs.take BloomHeader.blocksStart) = header bs := by
  unfold header BloomHeader.ofBytes
  rw [Bytes.wordAt_take (by decide), Bytes.window_take (by decide)]

theorem blockCount_take :
    BloomHeader.blockCount (bs.take BloomHeader.blocksStart) = blockCount bs := by
  unfold blockCount BloomHeader.blockCount
  rw [Bytes.wordAt_take (by decide)]

theorem byteIndex_lt (bit : Nat) : byteIndex bit < bitsetWidth := by
  have hwidth : bitsetWidth = 131072 := rfl
  unfold byteIndex
  omega

theorem Admitted.byte_le (h : Admitted bs) {block : Nat} (hb : block < (blockCount bs).toNat)
    (bit : Nat) : BloomFile.bitsetStart block + byteIndex bit + 1 ≤ bs.length := by
  have hlt : byteIndex bit < 131072 := byteIndex_lt bit
  have hblocks := Nat.mul_le_mul_right BloomHeader.blockWidth (show block + 1 ≤ _ from hb)
  have hsize := h.2.2.2
  rw [Nat.add_mul, Nat.one_mul] at hblocks
  unfold BloomFile.bitsetStart
  have hwidth : BloomHeader.blockWidth = 131076 := rfl
  rw [hwidth] at hblocks hsize ⊢
  omega

end Bloom

namespace BloomFile

def ofBytes (bs : Bytes) (range : BlockRange) : BloomFile :=
  ⟨.ofBytes bs, range, Bloom.header bs, (Bloom.blockCount bs).toNat⟩

variable {bs : Bytes} {range : BlockRange}

theorem gives_validate (h : Bloom.Admitted bs) :
    (validate range (Bloom.header bs) (Bloom.blockCount bs)
      ((SeekableSource.ofBytes bs).seekEnd .seekBloomEnd)).Gives
        (.ok (Bloom.blockCount bs).toNat) := by
  obtain ⟨-, hmagic, hcount, hsize⟩ := h
  unfold validate
  rw [if_neg (fun hne => hne hmagic), if_neg (Int.not_lt.mpr hcount)]
  refine (SeekableSource.gives_seekEnd _).bind ?_
  simp only [if_neg (Nat.not_lt_of_ge hsize)]
  exact Reading.gives_pure _

theorem openNamed_ofBytes {name : String} (hn : BlockRange.parse? name = some range)
    (h : Bloom.Admitted bs) : (openNamed (.ofBytes bs) name).Gives (.ok (ofBytes bs range)) := by
  have hrange : BlockRange.ofName name = .ok range := BlockRange.ofName_eq_ok.mpr hn
  unfold openNamed
  rw [hrange]
  refine (Reading.gives_lift _).bind ?_
  refine SeekableSource.gives_seekTo_readWith_bind (by simpa using h.1) _ _ ?_
  simp only [List.drop_zero, Bloom.ofBytes_take_header, Bloom.blockCount_take]
  exact (gives_validate h).bind (Reading.gives_pure _)

theorem admitted_of_validate {result : Nat} {cursor : Nat}
    (hw : BloomHeader.blocksStart ≤ bs.length)
    (h : ((validate range (Bloom.header bs) (Bloom.blockCount bs)
      ((SeekableSource.ofBytes bs).seekEnd .seekBloomEnd)).run cursor).1 = .ok result) :
    Bloom.Admitted bs ∧ result = (Bloom.blockCount bs).toNat := by
  unfold validate at h
  by_cases hmagic : (Bloom.header bs).magic = BloomHeader.bloomMagic
  · rw [if_neg (fun hne => hne hmagic)] at h
    by_cases hcount : Bloom.blockCount bs < 0
    · rw [if_pos hcount] at h
      cases h
    · rw [if_neg hcount] at h
      obtain ⟨size, next, hsize, h⟩ := Reading.ok_of_bind h
      have hlength : size = bs.length := (SeekableSource.gives_seekEnd _).eq_of_run hsize
      subst hlength
      by_cases hfits : bs.length <
          BloomHeader.blocksStart + (Bloom.blockCount bs).toNat * BloomHeader.blockWidth
      · simp only [if_pos hfits] at h
        cases h
      · simp only [if_neg hfits] at h
        cases h
        exact ⟨⟨hw, hmagic, Int.not_lt.mp hcount, Nat.le_of_not_lt hfits⟩, rfl⟩
  · rw [if_pos hmagic] at h
    cases h

/-- A file that was opened holds the blocks that it declares. -/
theorem eq_of_openNamed_ofBytes {name : String} {bloom : BloomFile} {cursor : Nat}
    (h : ((openNamed (.ofBytes bs) name).run cursor).1 = .ok bloom) :
    ∃ range, BlockRange.parse? name = some range ∧ Bloom.Admitted bs ∧
      bloom = ofBytes bs range := by
  unfold openNamed at h
  cases hn : BlockRange.parse? name with
  | none =>
    obtain ⟨range, next, hrange, -⟩ := Reading.ok_of_bind h
    simp only [BlockRange.ofName, hn] at hrange
    cases hrange
  | some range =>
    refine ⟨range, rfl, ?_⟩
    rw [BlockRange.ofName_eq_ok.mpr hn] at h
    obtain ⟨_, _, heq, h⟩ := Reading.ok_of_bind h
    cases heq
    obtain ⟨_, _, heq, h⟩ := Reading.ok_of_bind h
    cases heq
    obtain ⟨out, next, hread, h⟩ := Reading.ok_of_bind h
    obtain ⟨hle, rfl⟩ := SeekableSource.readWith_ofBytes_eq_ok hread (by decide)
    rw [List.drop_zero, Bloom.ofBytes_take_header, Bloom.blockCount_take] at h
    obtain ⟨count, _, hvalidate, h⟩ := Reading.ok_of_bind h
    cases h
    have hok := congrArg Prod.fst hvalidate
    obtain ⟨hadmitted, rfl⟩ := admitted_of_validate (by simpa using hle) hok
    exact ⟨hadmitted, rfl⟩

theorem blockHasBits_ofBytes (h : Bloom.Admitted bs) {block : Nat}
    (hb : block < (Bloom.blockCount bs).toNat) (bits : List Nat) :
    ((ofBytes bs range).blockHasBits block bits).Gives (.ok (Bloom.blockHolds bs bits block)) := by
  induction bits with
  | nil => exact Reading.gives_pure true
  | cons bit bits ih =>
    unfold blockHasBits
    refine SeekableSource.gives_seekTo_readWith_bind (h.byte_le hb bit) _ _ ?_
    have hbyte : ((bs.drop (bitsetStart block + Bloom.byteIndex bit)).take 1).headD 0 =
        Bloom.byteAt bs block bit := by
      unfold Bloom.byteAt
      rw [List.getD_eq_getElem?_getD, List.headD_eq_head?_getD, List.head?_take, List.head?_drop]
      rfl
    rw [hbyte]
    unfold Bloom.blockHolds
    rw [List.all_cons]
    cases hset : Bloom.isSet (Bloom.byteAt bs block bit) bit with
    | true =>
      rw [if_pos rfl, Bool.true_and]
      exact ih
    | false =>
      rw [if_neg Bool.false_ne_true, Bool.false_and]
      exact Reading.gives_pure false

theorem anyBlockHasBits_ofBytes (h : Bloom.Admitted bs) (bits : List Nat) {block count : Nat}
    (hle : block + count ≤ (Bloom.blockCount bs).toNat) :
    ((ofBytes bs range).anyBlockHasBits bits block count).Gives
      (.ok ((List.range' block count).any (Bloom.blockHolds bs bits))) := by
  induction count generalizing block with
  | zero => exact Reading.gives_pure false
  | succ count ih =>
    unfold anyBlockHasBits
    refine (blockHasBits_ofBytes h (by omega) bits).bind ?_
    rw [List.range'_succ, List.any_cons]
    cases Bloom.blockHolds bs bits block with
    | true =>
      rw [if_pos rfl, Bool.true_or]
      exact Reading.gives_pure true
    | false =>
      rw [if_neg Bool.false_ne_true, Bool.false_or]
      exact ih (by omega)

/-- A test of an opened file never fails, and says what the file says. -/
theorem isMember_ofBytes (h : Bloom.Admitted bs) (address : Address) :
    ((ofBytes bs range).isMember address).Gives (.ok (Bloom.holds bs address)) := by
  unfold isMember Bloom.holds
  rw [List.range_eq_range']
  exact anyBlockHasBits_ofBytes h _ (by simp [ofBytes])

end BloomFile

end AppearanceIndex
