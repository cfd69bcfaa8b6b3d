import AppearanceIndex.Proofs.Chunk.Verdict

/-!
# Files with the same tables

Two headers are alike if they declare tables of the same lengths, and two chunk files are alike if
they hold the tables that they declare, the same ones under the same magic number
(`Chunk.Alike`). The digests of files that are alike may differ, and so may whatever lies behind the
tables. Such files get the same verdict, and a stretch of the tables is the same in both.
-/

namespace AppearanceIndex

/-! ## Headers -/

namespace ChunkHeader

/-- The headers declare tables of the same lengths. -/
structure Alike (h other : ChunkHeader) : Prop where
  addressCount : other.addressCount = h.addressCount
  appearanceCount : other.appearanceCount = h.appearanceCount

variable {h other : ChunkHeader}

theorem Alike.refl (h : ChunkHeader) : h.Alike h := ⟨rfl, rfl⟩

theorem Alike.symm (ha : h.Alike other) : other.Alike h :=
  ⟨ha.addressCount.symm, ha.appearanceCount.symm⟩

theorem Alike.appearanceTableStart_eq (ha : h.Alike other) :
    other.appearanceTableStart = h.appearanceTableStart := by
  unfold appearanceTableStart
  rw [ha.addressCount]
  rfl

theorem Alike.fileSize_eq (ha : h.Alike other) : other.fileSize = h.fileSize := by
  unfold fileSize
  rw [ha.appearanceTableStart_eq, ha.appearanceCount]

theorem Alike.fits_iff (ha : h.Alike other) (record : AddressRecord) :
    record.Fits other ↔ record.Fits h := by
  unfold AddressRecord.Fits
  rw [ha.appearanceCount]

theorem Alike.spanStart_eq (ha : h.Alike other) (record : AddressRecord) :
    record.spanStart other = record.spanStart h := by
  unfold AddressRecord.spanStart
  rw [ha.appearanceTableStart_eq]

theorem Alike.spanError_eq (ha : h.Alike other) (record : AddressRecord) (range : BlockRange) :
    record.spanError other range = record.spanError h range := by
  unfold AddressRecord.spanError spanOutside
  rw [ha.appearanceCount]

theorem width_le_fileSize (h : ChunkHeader) : width ≤ h.fileSize := by
  unfold fileSize appearanceTableStart addressTableStart
  omega

end ChunkHeader

/-! ## Files -/

namespace Chunk

/-- Both files hold the tables that they declare, the same tables under the same magic number. -/
structure Alike (bs other : Bytes) : Prop where
  magic : (header other).magic = (header bs).magic
  lengths : (header bs).Alike (header other)
  whole : (header bs).fileSize ≤ bs.length
  whole' : (header other).fileSize ≤ other.length
  tables : ∀ i < (header bs).fileSize, ChunkHeader.width ≤ i → other[i]? = bs[i]?

variable {bs other : Bytes} {name : String} {range : BlockRange}

theorem Admitted.alike (h : Admitted bs) : Alike bs bs :=
  ⟨rfl, .refl _, h.2.2, h.2.2, fun _ _ _ => rfl⟩

theorem Alike.admitted (h : Alike bs other) (ha : Admitted bs) : Admitted other :=
  ⟨Nat.le_trans (ChunkHeader.width_le_fileSize _) h.whole', h.magic.trans ha.2.1, h.whole'⟩

/-- A stretch of the tables. -/
theorem Alike.slice_eq (h : Alike bs other) {offset count : Nat}
    (hstart : ChunkHeader.width ≤ offset) (hstop : offset + count ≤ (header bs).fileSize) :
    (other.drop offset).take count = (bs.drop offset).take count :=
  Bytes.slice_congr fun i hi => h.tables (offset + i) (by omega) (by omega)

theorem Alike.addressTable_eq (h : Alike bs other) : addressTable other = addressTable bs := by
  have hstart : ChunkHeader.width ≤ (header bs).addressTableStart := Nat.le_refl _
  have hstop : (header bs).addressTableStart +
      (header bs).addressCount.toNat * ChunkHeader.addressRecordWidth ≤ (header bs).fileSize :=
    Nat.le_add_right _ _
  unfold addressTable
  rw [h.lengths.addressCount]
  exact congrArg AddressRecord.decodeAll (h.slice_eq hstart hstop)

theorem Alike.appearanceTable_eq (h : Alike bs other) :
    appearanceTable other = appearanceTable bs := by
  have hstart : ChunkHeader.width ≤ (header bs).appearanceTableStart := Nat.le_add_right _ _
  have hstop : (header bs).appearanceTableStart +
      (header bs).appearanceCount.toNat * ChunkHeader.appearanceWidth ≤ (header bs).fileSize :=
    Nat.le_refl _
  unfold appearanceTable
  rw [h.lengths.appearanceTableStart_eq, h.lengths.appearanceCount]
  exact congrArg Appearance.decodeAll (h.slice_eq hstart hstop)

theorem Alike.spanOf_eq (h : Alike bs other) (record : AddressRecord) :
    spanOf other record = spanOf bs record := by
  unfold spanOf
  rw [h.appearanceTable_eq]

/-! ### The verdict -/

/-- Files that are alike can have no defect but their magic number. -/
theorem Alike.defect?_eq (h : Alike bs other) : defect? other = defect? bs := by
  have hdefect : ∀ {bs : Bytes}, (header bs).fileSize ≤ bs.length → defect? bs =
      if (header bs).magic.toNat ≠ 0xdeadbeef then some (.badMagic 4 (header bs).magic.toNat)
      else none := by
    intro bs hwhole
    have hlength : 44 ≤ bs.length := Nat.le_trans (ChunkHeader.width_le_fileSize _) hwhole
    have hword : (header bs).magic.toNat = bs.wordAt 0 4 := Bytes.toNat_ofNat_wordAt bs 0
    rw [fileSize_header] at hwhole
    unfold defect?
    rw [if_neg (Nat.not_lt_of_ge hlength), if_neg (Nat.not_lt_of_ge hwhole), hword]
  rw [hdefect h.whole, hdefect h.whole', h.magic]

theorem admitted_of_defect? (h : defect? bs = none) : Admitted bs := by
  obtain ⟨hlength, hmagic, hneeded⟩ := defect?_eq_none_iff.mp h
  exact ⟨hlength, magic_eq_iff.mpr hmagic, fileSize_header ▸ hneeded⟩

/-- What is admitted under a name is so with its header and the range that the name stands for. -/
theorem eq_of_verdict_ok {admitted : BlockRange × ChunkHeader}
    (h : verdict bs name = .ok admitted) :
    BlockRange.parse? name = some admitted.1 ∧ Admitted bs ∧ admitted.2 = header bs := by
  cases hn : BlockRange.parse? name with
  | none =>
    rw [verdict_of_no_range hn] at h
    cases h
  | some range =>
    rw [verdict_of_parse hn] at h
    cases hdefect : defect? bs with
    | none =>
      rw [hdefect] at h
      cases h
      exact ⟨rfl, admitted_of_defect? hdefect, rfl⟩
    | some reason =>
      rw [hdefect] at h
      cases h

/-- Only the header is admitted that the file begins with. -/
theorem verdict_eq_map (bs : Bytes) (name : String) :
    verdict bs name = (verdict bs name).map fun admitted => (admitted.1, header bs) := by
  cases hv : verdict bs name with
  | error e => rfl
  | ok admitted => rw [Except.map, ← (eq_of_verdict_ok hv).2.2]

/-- Files that are alike get the same verdict, each with its own header. -/
theorem Alike.verdict_eq (h : Alike bs other) (name : String) :
    verdict other name = (verdict bs name).map fun admitted => (admitted.1, header other) := by
  cases hn : BlockRange.parse? name with
  | none =>
    rw [verdict_of_no_range hn, verdict_of_no_range hn]
    rfl
  | some range =>
    rw [verdict_of_parse hn, verdict_of_parse hn, h.defect?_eq]
    cases defect? bs <;> rfl

end Chunk

end AppearanceIndex
