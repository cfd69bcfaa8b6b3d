import AppearanceIndex.Proofs.Chunk.Lookup

/-!
# Searching the address table

The table of an opened chunk is the list of its records, position by position
(`ChunkFile.HasTable`). When its addresses never descend, the search meets what going through the
table from the front meets (`ChunkFile.findAddress_first_of_opened`): the first record of the
address (`Chunk.FirstAt`), however often the address is repeated, or none where there is none.
-/

namespace AppearanceIndex

namespace Chunk

structure FirstAt (records : List AddressRecord) (target : Address) (position : Nat)
    (record : AddressRecord) : Prop where
  record_eq : records[position]? = some record
  address_eq : record.address = target
  earlier_ne : ∀ earlier < position, ∀ other, records[earlier]? = some other →
    other.address ≠ target

theorem find?_eq_some_iff_firstAt {records : List AddressRecord} {target : Address}
    {record : AddressRecord} :
    records.find? (·.address = target) = some record ↔
      ∃ position, FirstAt records target position record := by
  rw [List.find?_eq_some_iff_getElem]
  constructor
  · rintro ⟨haddress, position, hlt, hrecord, hearlier⟩
    refine ⟨position, List.getElem?_eq_some_iff.mpr ⟨hlt, hrecord⟩, of_decide_eq_true haddress, ?_⟩
    intro earlier hle other hother
    obtain ⟨_, rfl⟩ := List.getElem?_eq_some_iff.mp hother
    simpa using hearlier earlier hle
  · rintro ⟨position, hrecord, haddress, hearlier⟩
    obtain ⟨hlt, heq⟩ := List.getElem?_eq_some_iff.mp hrecord
    refine ⟨decide_eq_true haddress, position, hlt, heq, fun earlier hle => ?_⟩
    simpa using hearlier earlier hle _ (List.getElem?_eq_getElem (by omega))

end Chunk

namespace ChunkFile

/-- These are the records of the address table, wherever the cursor is. -/
structure HasTable (chunk : ChunkFile) (records : List AddressRecord) : Prop where
  length_eq : records.length = chunk.header.addressCount.toNat
  gives : ∀ position record, records[position]? = some record →
    (chunk.addressRecordAt position).Gives (.ok record)

theorem HasTable.unique {chunk : ChunkFile} {records records' : List AddressRecord}
    (h : chunk.HasTable records) (h' : chunk.HasTable records') : records = records' := by
  apply List.ext_getElem (h.length_eq.trans h'.length_eq.symm)
  intro i hi hi'
  have hgives := h.gives i _ (List.getElem?_eq_getElem hi) 0
  have hgives' := h'.gives i _ (List.getElem?_eq_getElem hi') 0
  exact Except.ok.inj (hgives.symm.trans hgives')

variable {bs : Bytes} {range : BlockRange}

theorem hasTable_ofBytes (h : Chunk.Admitted bs) (range : BlockRange) :
    (ofBytes bs range).HasTable (Chunk.addressTable bs) where
  length_eq := h.length_addressTable
  gives _ _ hrecord := addressRecordAt_ofBytes h hrecord

/-- A file that was opened holds the tables that its header declares. -/
theorem eq_of_openNamed_ofBytes {name : String} {chunk : ChunkFile} {cursor : Nat}
    (h : ((openNamed (.ofBytes bs) name).run cursor).1 = .ok chunk) :
    ∃ range, BlockRange.parse? name = some range ∧ Chunk.Admitted bs ∧
      chunk = ofBytes bs range := by
  unfold openNamed at h
  obtain ⟨range, _, hrange, h⟩ := Reading.ok_of_bind h
  obtain ⟨_, _, hseek, h⟩ := Reading.ok_of_bind h
  cases hseek
  obtain ⟨out, _, hread, h⟩ := Reading.ok_of_bind h
  obtain ⟨hle, rfl⟩ := SeekableSource.readWith_ofBytes_eq_ok hread (by decide)
  have hheader : ChunkHeader.ofBytes ((bs.drop 0).take ChunkHeader.width) = Chunk.header bs :=
    ChunkHeader.ofBytes_take (Nat.le_refl _)
  rw [hheader] at h
  obtain ⟨size, _, hsize, h⟩ := Reading.ok_of_bind h
  have hlength : size = bs.length := (SeekableSource.gives_seekEnd _).eq_of_run hsize
  subst hlength
  obtain ⟨_, _, hvalidate, h⟩ := Reading.ok_of_bind h
  cases h
  have hok : (Chunk.header bs).validate range bs.length = .ok () := congrArg Prod.fst hvalidate
  have hname : BlockRange.ofName name = .ok range := congrArg Prod.fst hrange
  exact ⟨range, BlockRange.ofName_eq_ok.mp hname, Chunk.admitted_of_validate (by omega) hok, rfl⟩

/-- In an opened file whose table does not descend, the search never fails: it finds the record of
the address at the smallest position, and none exactly if no position holds the address. -/
theorem findAddress_first_of_opened {name : String} {file : ChunkFile} {cursor : Nat}
    (h : ((openNamed (.ofBytes bs) name).run cursor).1 = .ok file) :
    ∃ records, file.HasTable records ∧
      (records.Pairwise (·.address ≤ ·.address) → ∀ target, ∃ found,
        (file.findAddress target).Gives (.ok found) ∧
          (∀ record, found = some record ↔
            ∃ position, Chunk.FirstAt records target position record) ∧
          (found = none ↔ ∀ record ∈ records, record.address ≠ target)) := by
  obtain ⟨range, -, hadmitted, rfl⟩ := eq_of_openNamed_ofBytes h
  refine ⟨Chunk.addressTable bs, hasTable_ofBytes hadmitted range, fun hs target => ?_⟩
  refine ⟨_, findAddress_ofBytes hadmitted hs target, fun record => ?_, ?_⟩
  · exact Chunk.find?_eq_some_iff_firstAt
  · rw [List.find?_eq_none]
    simp only [decide_eq_true_eq]

def repeatedBytes : Bytes :=
  let records : List AddressRecord :=
    [⟨.ofNat 1, 0, 1⟩, ⟨.ofNat 2, 1, 1⟩, ⟨.ofNat 2, 0, 2⟩, ⟨.ofNat 2, 2, 0⟩, ⟨.ofNat 4, 0, 0⟩]
  let apps : List Appearance := [⟨10, 0⟩, ⟨12, 5⟩]
  ChunkHeader.toBytes ⟨ChunkHeader.chunkMagic, Vector.replicate 32 0, 5, 2⟩ ++
    records.flatMap AddressRecord.toBytes ++ apps.flatMap Appearance.toBytes

theorem findAddress_first_repeated :
    ∃ file, (openNamed (.ofBytes repeatedBytes) "10-19.bin").fromStart = .ok file ∧
      (file.findAddress (.ofNat 2)).Gives (.ok (some ⟨.ofNat 2, 1, 1⟩)) ∧
      (file.findAddress (.ofNat 3)).Gives (.ok none) := by
  have hname : BlockRange.parse? "10-19.bin" = some ⟨10, 19⟩ := by decide +kernel
  have hadmitted : Chunk.Admitted repeatedBytes := by decide +kernel
  have hopen := openNamed_ofBytes hname hadmitted 0
  have htable : Chunk.addressTable repeatedBytes =
      [⟨.ofNat 1, 0, 1⟩, ⟨.ofNat 2, 1, 1⟩, ⟨.ofNat 2, 0, 2⟩, ⟨.ofNat 2, 2, 0⟩,
        ⟨.ofNat 4, 0, 0⟩] := by
    decide +kernel
  obtain ⟨records, hrecords, hsearch⟩ := findAddress_first_of_opened hopen
  have hsame := hrecords.unique (hasTable_ofBytes hadmitted _)
  rw [htable] at hsame
  subst hsame
  have hfind := hsearch (by decide)
  refine ⟨_, hopen, ?_, ?_⟩
  · obtain ⟨found, hfound, hfirst, -⟩ := hfind (.ofNat 2)
    rwa [(hfirst ⟨.ofNat 2, 1, 1⟩).mpr ⟨1, rfl, rfl, by decide⟩] at hfound
  · obtain ⟨found, hfound, -, hnone⟩ := hfind (.ofNat 3)
    rwa [hnone.mpr (by decide)] at hfound

end ChunkFile

end AppearanceIndex
