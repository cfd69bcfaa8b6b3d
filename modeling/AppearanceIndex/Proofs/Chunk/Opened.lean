import AppearanceIndex.Proofs.Chunk.Probes
import AppearanceIndex.Proofs.Chunk.Search

/-!
# What an opened file answers

The header of a file is checked once, when the file is opened, against the size of the file. Behind
that check every question about the tables has an answer (`ChunkFile.serves_of_opened`): each record
is read, each search comes to an end, in order or not, and a span is read just if it lies inside the
table, for whatever record. What is refused is refused because of the file or the question; no read
fails any more.
-/

namespace AppearanceIndex

namespace Reading

variable {α : Type} {reading : Reading α} {result : Except Error α}

/-- If the reading fails, it is because the file, or what was asked of it, is malformed. -/
def FailsInFormat (reading : Reading α) : Prop :=
  ∀ cursor e, (reading.run cursor).1 = .error e → e.isFormat = true

theorem Gives.failsInFormat (h : reading.Gives result)
    (hr : ∀ e, result = .error e → e.isFormat = true) : reading.FailsInFormat :=
  fun cursor e he => hr e ((h cursor).symm.trans he)

theorem Gives.failsInFormat_of_ok {a : α} (h : reading.Gives (.ok a)) : reading.FailsInFormat :=
  h.failsInFormat fun _ heq => nomatch heq

end Reading

/-- A lookup that asks only for records that can be read does not fail. -/
theorem Lookup.gives_run {α : Type} {recordAt : Nat → Reading AddressRecord} {bound : Nat}
    (hrecord : ∀ position < bound, ∃ record, (recordAt position).Gives (.ok record))
    (lookup : Lookup α) (hbound : ∀ probes result, lookup.Path probes result →
      ∀ probe ∈ probes, probe.position < bound) :
    ∃ a, (lookup.run recordAt).Gives (.ok a) := by
  induction lookup with
  | done a => exact ⟨a, Reading.gives_pure a⟩
  | ask position next ih =>
    have hposition : position < bound :=
      hbound _ _ (.failed .cancelled) _ (List.mem_singleton_self _)
    obtain ⟨record, hread⟩ := hrecord position hposition
    have hnext : ∀ probes result, (next record).Path probes result →
        ∀ probe ∈ probes, probe.position < bound := by
      intro probes result hpath probe hmem
      exact hbound _ _ (.answered hpath) probe (List.mem_cons_of_mem _ hmem)
    obtain ⟨a, hrest⟩ := ih record hnext
    exact ⟨a, hread.bind hrest⟩

namespace ChunkFile

/-- A file that answers for these tables whatever it is asked. -/
structure Serves (file : ChunkFile) (records : List AddressRecord) (table : List Appearance) :
    Prop where
  length_table : table.length = file.header.appearanceCount.toNat
  /-- Every position has its record. -/
  record : ∀ position < file.header.addressCount.toNat, ∃ record,
    records[position]? = some record ∧ (file.addressRecordAt position).Gives (.ok record)
  /-- No search fails. -/
  search : ∀ target, ∃ found, (file.findAddress target).Gives (.ok found)
  /-- A span is read just if it ends inside the table. -/
  span_iff : ∀ record : AddressRecord,
    (∃ apps, (file.readAppearances record).Gives (.ok apps)) ↔
      record.offset.toNat + record.count.toNat ≤ file.header.appearanceCount.toNat
  /-- A span that is read is a piece of the table. -/
  span : ∀ (record : AddressRecord) (apps : List Appearance),
    (file.readAppearances record).Gives (.ok apps) → apps.length = record.count.toNat ∧
      ∀ i < record.count.toNat, apps[i]? = table[record.offset.toNat + i]?
  /-- Any other span is refused. -/
  refused : ∀ record : AddressRecord,
    file.header.appearanceCount.toNat < record.offset.toNat + record.count.toNat →
      ∃ e, (file.readAppearances record).Gives (.error e) ∧ e.isFormat = true
  failsInFormat : (∀ position, (file.addressRecordAt position).FailsInFormat) ∧
    (∀ target, (file.findAddress target).FailsInFormat) ∧
    (∀ record, (file.readAppearances record).FailsInFormat) ∧
    ∀ target, (file.getAppearances target).FailsInFormat

variable {bs : Bytes} {range : BlockRange}

theorem exists_record (h : Chunk.Admitted bs) {position : Nat}
    (hp : position < (Chunk.header bs).addressCount.toNat) :
    ∃ record, (Chunk.addressTable bs)[position]? = some record ∧
      ((ofBytes bs range).addressRecordAt position).Gives (.ok record) := by
  rw [← h.length_addressTable] at hp
  have hrecord := List.getElem?_eq_getElem hp
  exact ⟨_, hrecord, addressRecordAt_ofBytes h hrecord⟩

theorem exists_found (h : Chunk.Admitted bs) (target : Address) :
    ∃ found, ((ofBytes bs range).findAddress target).Gives (.ok found) := by
  have hrecord : ∀ position < (Chunk.header bs).addressCount.toNat, ∃ record,
      ((ofBytes bs range).addressRecordAt position).Gives (.ok record) := by
    intro position hp
    obtain ⟨record, -, hread⟩ := exists_record h hp
    exact ⟨record, hread⟩
  refine Lookup.gives_run hrecord _ fun probes result hpath => ?_
  exact (Lookup.path_search hpath (Chunk.header bs).addressCount.toNat_lt).1

/-- A position behind the table is refused. -/
theorem addressRecordAt_of_le {position : Nat}
    (hp : (Chunk.header bs).addressCount.toNat ≤ position) :
    ((ofBytes bs range).addressRecordAt position).Gives (.error (.malformed .chunk range
      (.positionOutside position (Chunk.header bs).addressCount.toNat))) := by
  unfold addressRecordAt
  rw [if_pos (show (ofBytes bs range).header.addressCount.toNat ≤ position from hp)]
  exact (Reading.gives_throw _).bind_error

theorem addressRecordAt_failsInFormat (h : Chunk.Admitted bs) (position : Nat) :
    ((ofBytes bs range).addressRecordAt position).FailsInFormat := by
  by_cases hp : position < (Chunk.header bs).addressCount.toNat
  · obtain ⟨record, -, hread⟩ := exists_record h hp
    exact hread.failsInFormat_of_ok
  · refine (addressRecordAt_of_le (Nat.le_of_not_lt hp)).failsInFormat ?_
    rintro e ⟨⟩
    rfl

theorem readAppearances_failsInFormat (h : Chunk.Admitted bs) (record : AddressRecord) :
    ((ofBytes bs range).readAppearances record).FailsInFormat := by
  by_cases hf : record.Fits (Chunk.header bs)
  · exact (readAppearances_ofBytes h hf).failsInFormat_of_ok
  · refine (readAppearances_of_not_fits hf).failsInFormat ?_
    rintro e ⟨⟩
    rfl

theorem getAppearances_failsInFormat (h : Chunk.Admitted bs) (target : Address) :
    ((ofBytes bs range).getAppearances target).FailsInFormat := by
  have hsearch : ∃ found, ((ofBytes bs range).findAddress target).Gives (.ok found) :=
    exists_found h target
  obtain ⟨found, hfound⟩ := hsearch
  intro cursor e he
  unfold getAppearances at he
  rw [Reading.run_bind] at he
  have hresult := hfound cursor
  cases hrun : ((ofBytes bs range).findAddress target).run cursor with
  | mk out next =>
    rw [hrun] at he hresult
    cases hresult
    cases found with
    | none => cases he
    | some record => exact readAppearances_failsInFormat h record next e he

/-- Opening a file is all the checking that its readers need. -/
theorem serves_of_opened {name : String} {file : ChunkFile} {cursor : Nat}
    (h : ((openNamed (.ofBytes bs) name).run cursor).1 = .ok file) :
    file.Serves (Chunk.addressTable bs) (Chunk.appearanceTable bs) := by
  obtain ⟨range, -, hadmitted, rfl⟩ := eq_of_openNamed_ofBytes h
  have hread : ∀ {record : AddressRecord}, record.Fits (Chunk.header bs) →
      ((ofBytes bs range).readAppearances record).Gives (.ok (Chunk.spanOf bs record)) :=
    readAppearances_ofBytes hadmitted
  have hrefused : ∀ {record : AddressRecord}, ¬ record.Fits (Chunk.header bs) →
      ((ofBytes bs range).readAppearances record).Gives
        (.error (record.spanError (Chunk.header bs) range)) := readAppearances_of_not_fits
  have hfits : ∀ {record : AddressRecord} {apps : List Appearance},
      ((ofBytes bs range).readAppearances record).Gives (.ok apps) →
        record.Fits (Chunk.header bs) := by
    intro record apps hgives
    refine Classical.byContradiction fun hn => ?_
    cases hgives.result_eq (hrefused hn)
  have hsearch : ∀ target, ∃ found, ((ofBytes bs range).findAddress target).Gives (.ok found) :=
    exists_found hadmitted
  refine ⟨hadmitted.length_appearanceTable, fun _ hp => exists_record hadmitted hp,
    hsearch, fun record => ⟨?_, fun hf => ⟨_, hread hf⟩⟩, ?_, ?_,
    addressRecordAt_failsInFormat hadmitted, fun target => ?_,
    readAppearances_failsInFormat hadmitted, getAppearances_failsInFormat hadmitted⟩
  · rintro ⟨apps, hgives⟩
    exact hfits hgives
  · intro record apps hgives
    have hf := hfits hgives
    cases hgives.result_eq (hread hf)
    exact ⟨hadmitted.length_spanOf hf, fun i => Chunk.getElem?_spanOf bs⟩
  · intro record hend
    exact ⟨_, hrefused (Nat.not_le_of_lt hend), rfl⟩
  · obtain ⟨found, hfound⟩ := hsearch target
    exact hfound.failsInFormat_of_ok

/-- A chunk whose addresses are in no order, with bytes behind its tables. -/
def disorderedBytes : Bytes :=
  let records : List AddressRecord :=
    [⟨.ofNat 9, 2, 0⟩, ⟨.ofNat 2, 1, 4294967295⟩, ⟨.ofNat 5, 0, 2⟩]
  let apps : List Appearance := [⟨10, 0⟩, ⟨12, 5⟩]
  ChunkHeader.toBytes ⟨ChunkHeader.chunkMagic, Vector.replicate 32 0, 3, 2⟩ ++
    records.flatMap AddressRecord.toBytes ++ apps.flatMap Appearance.toBytes ++ [7, 7, 7]

theorem serves_of_disordered :
    ∃ file, (openNamed (.ofBytes disorderedBytes) "10-19.bin").fromStart = .ok file ∧
      file.Serves (Chunk.addressTable disorderedBytes) [⟨10, 0⟩, ⟨12, 5⟩] := by
  have hname : BlockRange.parse? "10-19.bin" = some ⟨10, 19⟩ := by decide +kernel
  have hadmitted : Chunk.Admitted disorderedBytes := by decide +kernel
  have htable : Chunk.appearanceTable disorderedBytes = [⟨10, 0⟩, ⟨12, 5⟩] := by decide +kernel
  have hopen := openNamed_ofBytes hname hadmitted 0
  have hserves := serves_of_opened hopen
  rw [htable] at hserves
  exact ⟨_, hopen, hserves⟩

end ChunkFile

end AppearanceIndex
