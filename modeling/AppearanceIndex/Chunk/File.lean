import AppearanceIndex.Chunk.Lookup

/-!
# Chunk files

A `ChunkFile` is a source whose header was admitted. Lookups leave the tables where they are: every
one is a few reads at computed offsets. `findAddress` carries `Lookup.search` out with the records
of the address table, which the indexer writes in ascending order; nothing here checks that order.
-/

namespace AppearanceIndex

structure ChunkFile where
  source : SeekableSource
  range : BlockRange
  header : ChunkHeader

namespace ChunkFile

/-- Opens a source as the chunk of a range: parses the name, reads the header and checks it. -/
def openNamed (source : SeekableSource) (name : String) : Reading ChunkFile := do
  let range ← ExceptT.mk (pure (BlockRange.ofName name))
  source.seekTo .seekChunkHeader 0
  let bs ← source.readWith (.ofHeaderRead .chunk range .readChunkHeader) ChunkHeader.width
  let header := ChunkHeader.ofBytes bs
  let size ← source.seekEnd .seekChunkEnd
  ExceptT.mk (pure (header.validate range size))
  return { source, range, header }

def addressRecordAt (chunk : ChunkFile) (position : Nat) : Reading AddressRecord := do
  if chunk.header.addressCount.toNat ≤ position then
    throw (.malformed .chunk chunk.range
      (.positionOutside position chunk.header.addressCount.toNat))
  chunk.source.seekTo .seekAddressRecord (AddressRecord.location chunk.header position)
  let bs ← chunk.source.readNext .readAddressRecord ChunkHeader.addressRecordWidth
  return AddressRecord.ofBytes bs

/-- The record of an address, if a search of the address table meets it. -/
def findAddress (chunk : ChunkFile) (target : Address) : Reading (Option AddressRecord) :=
  (Lookup.search chunk.header.addressCount.toNat target).run chunk.addressRecordAt

/-- The record at a position holds the target or a later address. -/
def reaches (chunk : ChunkFile) (target : Address) (position : Nat) : Reading Bool := do
  let record ← chunk.addressRecordAt position
  return decide (target ≤ record.address)

theorem findAddress_eq (chunk : ChunkFile) (target : Address) :
    chunk.findAddress target = (do
      let position ← lowerBound (chunk.reaches target) 0 chunk.header.addressCount.toNat
      if position = chunk.header.addressCount.toNat then
        return none
      let record ← chunk.addressRecordAt position
      return if record.address = target then some record else none) :=
  Lookup.run_search _ _ _

/-- The appearances of a record's span, in file order. -/
def readAppearances (chunk : ChunkFile) (record : AddressRecord) : Reading (List Appearance) := do
  if ¬ record.Fits chunk.header then
    throw (record.spanError chunk.header chunk.range)
  chunk.source.seekTo .seekAppearances (record.spanStart chunk.header)
  let bs ← chunk.source.readNext .readAppearances record.spanBytes
  return Appearance.decodeAll bs

/-- The appearances of an address; none if it is not in the chunk. -/
def getAppearances (chunk : ChunkFile) (target : Address) : Reading (List Appearance) := do
  match ← chunk.findAddress target with
  | some record => chunk.readAppearances record
  | none => return []

theorem length_of_readAppearances {chunk : ChunkFile} {record : AddressRecord} {cursor : Nat}
    {apps : List Appearance} (h : ((chunk.readAppearances record).run cursor).1 = .ok apps) :
    apps.length = record.count.toNat := by
  simp only [readAppearances] at h
  split at h
  · cases h
  · obtain ⟨_, _, _, h⟩ := Reading.ok_of_bind h
    obtain ⟨bs, _, hr, h⟩ := Reading.ok_of_bind h
    cases h
    rw [Appearance.length_decodeAll, SeekableSource.length_of_readNext hr]
    exact Nat.mul_div_cancel _ (by decide)

theorem length_of_getAppearances {chunk : ChunkFile} {target : Address} {cursor : Nat}
    {apps : List Appearance} (h : ((chunk.getAppearances target).run cursor).1 = .ok apps) :
    apps.length < UInt32.size := by
  obtain ⟨found, _, _, h⟩ := Reading.ok_of_bind h
  cases found with
  | none => cases h; decide
  | some record => rw [length_of_readAppearances h]; exact record.count.toNat_lt

end ChunkFile

end AppearanceIndex
