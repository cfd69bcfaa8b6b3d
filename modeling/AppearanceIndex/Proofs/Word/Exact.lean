import AppearanceIndex.Proofs.Word.Bloom

/-!
# No reader overflows

Whatever a file holds, the readers of chunks and of bloom files never leave their words: run over
words that are checked, each of them comes to its end as it does over numbers.
-/

namespace AppearanceIndex

open Word

/-- Offsets and sizes, lookups in a chunk, the reads of a worker for a shard of any plan, opening a
bloom file and testing in it for an address: none has a sum, a product or a difference that is not
a word, and all give what they give over numbers. -/
theorem readers_stay_in_words :
    (∀ h : ChunkHeader, h.addressTableWord.toNat = h.addressTableStart ∧
      Is h.appearanceTableStart? h.appearanceTableStart ∧ Is h.fileSize? h.fileSize) ∧
    (∀ record : AddressRecord, Is record.spanEnd? record.spanEnd) ∧
    (∀ (chunk : ChunkFile) (position : BitVec 32),
      chunk.addressRecordAt? position = liftM (chunk.addressRecordAt position.toNat)) ∧
    (∀ (chunk : ChunkFile) (target : Address),
      chunk.findAddress? target = liftM (chunk.findAddress target)) ∧
    (∀ (chunk : ChunkFile) (record : AddressRecord),
      chunk.readAppearances? record = liftM (chunk.readAppearances record)) ∧
    (∀ (addresses : BitVec 32) (maxWorkers : BitVec 64) (shards : List ShardWords),
      planShards? addresses maxWorkers = some shards → ∀ shard ∈ shards, ∀ chunk : OpenChunk,
        Is shard.stop? shard.toShard.stop ∧
        chunk.readRecords? shard = some (chunk.readRecords shard.toShard) ∧
        ∀ record, chunk.readSpan? shard record = some (chunk.readSpan shard.toShard record)) ∧
    (∀ (source : SeekableSource) (name : String),
      BloomFile.openNamed? source name = liftM (BloomFile.openNamed source name)) ∧
    (∀ bloom : BloomFile, bloom.blockCount < 2 ^ 31 → ∀ address,
      bloom.isMember? address = liftM (bloom.isMember address)) ∧
    (∀ address, ∃ bits, Bloom.bitsOf? address = some bits ∧
      bits.map BitVec.toNat = Bloom.bitsOf address ∧
      ∀ bit ∈ bits, ∃ index mask, Bloom.bitPosition? bit = some (index, mask) ∧
        index.toNat = Bloom.byteIndex bit.toNat ∧ ⟨mask⟩ = Bloom.bitMask bit.toNat) := by
  refine ⟨fun h => ⟨h.toNat_addressTableWord, h.is_appearanceTableStart?, h.is_fileSize?⟩,
    fun record => record.is_spanEnd?, fun chunk => chunk.addressRecordAt?_eq,
    fun chunk => chunk.findAddress?_eq, fun chunk => chunk.readAppearances?_eq,
    fun addresses maxWorkers shards hplan shard hshard chunk => ?_, BloomFile.openNamed?_eq,
    fun bloom hcount => bloom.isMember?_eq hcount, fun address => ?_⟩
  · have hstop := stop_lt_of_mem_planShards? hplan hshard
    exact ⟨ShardWords.is_stop? hstop, chunk.readRecords?_eq hstop, chunk.readSpan?_eq hstop⟩
  · obtain ⟨bits, hsome, hbits⟩ := Bloom.bitsOf?_eq address
    refine ⟨bits, hsome, hbits, fun bit hbit => ?_⟩
    have hmem : bit.toNat ∈ Bloom.bitsOf address := by
      rw [← hbits]
      exact List.mem_map_of_mem hbit
    obtain ⟨index, hposition, hindex⟩ := Bloom.bitPosition?_eq (Bloom.lt_of_mem_bitsOf hmem)
    exact ⟨index, _, hposition, hindex, rfl⟩

/-- The largest counts: two full tables, one shard of all addresses, and as many blocks as a signed
word can count. -/
theorem readers_stay_in_words_at_most :
    let header : ChunkHeader := ⟨ChunkHeader.chunkMagic, Vector.replicate 32 0, 4294967295,
      4294967295⟩
    let chunk : OpenChunk := ⟨PositionalSource.ofBytes [], ⟨0, 0⟩, header⟩
    let shard : ShardWords := ⟨0, BitVec.allOnes 32⟩
    let bloom : BloomFile := ⟨SeekableSource.ofBytes [], ⟨0, 0⟩, ⟨0, Vector.replicate 32 0⟩,
      2147483647⟩
    Is header.fileSize? 154618822664 ∧ planShards? (BitVec.allOnes 32) 1 = some [shard] ∧
      Is shard.stop? 4294967295 ∧
      chunk.readRecords? shard = some (chunk.readRecords ⟨0, 4294967295⟩) ∧
      bloom.blockCount < 2 ^ 31 ∧
      bloom.isMember? (.ofIndex 1) = liftM (bloom.isMember (.ofIndex 1)) := by
  intro header chunk shard bloom
  have hplan : planShards? (BitVec.allOnes 32) 1 = some [shard] := by rfl
  have hsize : header.fileSize = 154618822664 := by decide
  have hshard : shard.toShard = ⟨0, 4294967295⟩ := by decide
  have hcount : bloom.blockCount < 2 ^ 31 := by decide
  obtain ⟨hsizes, -, -, -, -, hshards, -, hmember, -⟩ := readers_stay_in_words
  obtain ⟨hstop, hread, -⟩ :=
    hshards _ _ _ hplan shard (List.mem_singleton_self shard) chunk
  rw [hshard] at hstop hread
  exact ⟨hsize ▸ (hsizes header).2.2, hplan, hstop, hread, hcount, hmember bloom hcount _⟩

end AppearanceIndex
