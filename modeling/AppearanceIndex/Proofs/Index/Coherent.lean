import AppearanceIndex.Proofs.Bloom.Lookup
import AppearanceIndex.Proofs.Files.Changes
import AppearanceIndex.Proofs.Index.Listing
import AppearanceIndex.Proofs.Ingest.Complete
import AppearanceIndex.Proofs.Scan.Outcome
import AppearanceIndex.Proofs.Scan.Receive
import Mathlib.Data.List.Perm.Basic

/-!
# Coherent indexes

The filters and the chunks of an index may be about the same ranges, with filters that deny no
address of their chunk (`IndexDirectory.Coherent`). A scan of such an index whose chunks can all be
read finds exactly what the chunks hold of the address (`IndexDirectory.Coherent.succeeds`).
-/

namespace AppearanceIndex

namespace IndexDirectory

variable {d : IndexDirectory} {files : FileStore} {chain : String}

def BloomOpens (d : IndexDirectory) (files : FileStore) (chain name : String) (bloom : BloomFile) :
    Prop :=
  ∃ bs, files.openRead (d.bloomPath chain name) = .ok (.content bs) ∧
    (BloomFile.openNamed (.ofBytes bs) name).fromStart = .ok bloom

/-- The filters and the chunks of a chain are about the same ranges and the same addresses. -/
structure Coherent (d : IndexDirectory) (files : FileStore) (chain : String)
    (blooms : List String) (chunks : List ChunkEntry) : Prop where
  bloomList : d.bloomNames files chain = .ok blooms
  chunkList : ChunkEntry.list files (d.chunkDirectory chain) ⟨none, none⟩ = .ok chunks
  names : ∀ name, name ∈ RangeSource.rangeNames blooms ↔ name ∈ chunks.map ChunkEntry.name
  ascending : ∀ chunk ∈ chunks, ∀ bs, files.contentOf chunk.path = .ok bs →
    (Chunk.addressTable bs).Pairwise (·.address < ·.address)
  opens : ∀ chunk ∈ chunks, ∃ bloom, d.BloomOpens files chain chunk.name bloom
  members : ∀ chunk ∈ chunks, ∀ bloom, d.BloomOpens files chain chunk.name bloom →
    ∀ bs, files.contentOf chunk.path = .ok bs → ∀ record ∈ Chunk.addressTable bs,
      (bloom.isMember record.address).fromStart = .ok true

/-! ## The two readers of one name -/

theorem mayContain_eq {bs : Bytes} {name : String} {range : BlockRange} {address : Address}
    (hread : files.openRead (d.bloomPath chain name) = .ok (.content bs))
    (hname : BlockRange.parse? name = some range) (h : Bloom.Admitted bs) :
    (d.source files chain).mayContain address name = .ok (Bloom.holds bs address) := by
  have hopen : (d.source files chain).openBloom name = .ok (.ofBytes bs) := by
    show ((Activity.openBloomFile _).ofIo (files.openRead (d.bloomPath chain name))).map
      sourceOf = _
    rw [hread]
    rfl
  have hbloom := BloomFile.openNamed_ofBytes hname h
  unfold RangeSource.mayContain
  rw [hopen]
  show (do
    let bloom ← (Activity.readBloom name).ofIndex
      ((BloomFile.openNamed (.ofBytes bs) name).run 0).1
    (Activity.testBloom name).ofIndex ((bloom.isMember address).run
      ((BloomFile.openNamed (.ofBytes bs) name).run 0).2).1) = _
  rw [hbloom 0]
  exact congrArg (Activity.testBloom name).ofIndex (BloomFile.isMember_ofBytes h address _)

theorem extract_eq {bs : Bytes} {name : String} {range : BlockRange} {address : Address}
    (hread : files.openRead (d.chunkPath chain name) = .ok (.content bs))
    (hname : BlockRange.parse? name = some range) (h : Chunk.Admitted bs)
    (hs : (Chunk.addressTable bs).Pairwise (·.address < ·.address))
    (hf : ∀ record ∈ Chunk.addressTable bs, record.Fits (Chunk.header bs)) :
    (d.source files chain).extract address name =
      .ok (((Chunk.decoded bs).filter (·.address = address)).map (·.appearance)) := by
  have hopen : (d.source files chain).openChunk name = .ok (.ofBytes bs) := by
    show ((Activity.openChunkPath _).ofIo (files.openRead (d.chunkPath chain name))).map
      sourceOf = _
    rw [hread]
    rfl
  have hchunk := ChunkFile.openNamed_ofBytes hname h
  unfold RangeSource.extract
  rw [hopen]
  show (do
    let chunk ← (Activity.readChunk name).ofIndex
      ((ChunkFile.openNamed (.ofBytes bs) name).run 0).1
    (Activity.searchChunk name).ofIndex ((chunk.getAppearances address).run
      ((ChunkFile.openNamed (.ofBytes bs) name).run 0).2).1) = _
  rw [hchunk 0]
  exact congrArg (Activity.searchChunk name).ofIndex
    (ChunkFile.getAppearances_ofBytes h hs hf address _)

/-- What a chunk file decodes to of an address; nothing if it cannot be read. -/
def held (d : IndexDirectory) (files : FileStore) (chain : String) (address : Address)
    (name : String) : List Appearance :=
  match files.contentOf (d.chunkPath chain name) with
  | .ok bs => ((Chunk.decoded bs).filter (·.address = address)).map (·.appearance)
  | .error _ => []

variable {blooms : List String} {chunks : List ChunkEntry} {address : Address}

/-- The filter of a chunk that can be read answers, and the search behind it finds what the chunk
file holds of the address; nothing is held where the filter does not let the address pass. -/
theorem Coherent.scan_held (h : d.Coherent files chain blooms chunks) {chunk : ChunkEntry}
    (hc : chunk ∈ chunks) {bs : Bytes} (hreadable : chunk.Readable files bs) :
    ∃ b, (d.source files chain).mayContain address chunk.name = .ok b ∧
      (d.source files chain).extract address chunk.name =
        .ok (d.held files chain address chunk.name) ∧
      (b = false → d.held files chain address chunk.name = []) := by
  obtain ⟨hread, ⟨range, hname⟩, hadmitted, hfits⟩ := hreadable
  have hascending := h.ascending chunk hc bs hread
  have hpath : chunk.path = d.chunkPath chain chunk.name :=
    (ChunkEntry.of_mem_list h.chunkList hc).1
  obtain ⟨bloom, content, hbloom, hopen⟩ := h.opens chunk hc
  have hmembers := h.members chunk hc bloom ⟨content, hbloom, hopen⟩ bs hread
  obtain ⟨range', hname', hholds, rfl⟩ := BloomFile.eq_of_openNamed_ofBytes hopen
  rw [hpath] at hread
  have hheld : d.held files chain address chunk.name =
      ((Chunk.decoded bs).filter (·.address = address)).map (·.appearance) := by
    unfold held
    rw [hread]
  refine ⟨Bloom.holds content address, mayContain_eq hbloom hname' hholds, ?_, ?_⟩
  · rw [hheld]
    exact extract_eq (FileStore.openRead_of_contentOf hread) hname hadmitted hascending hfits
  · intro hnot
    rw [hheld, Chunk.decoded, Chunk.filter_decoded bs address hascending]
    cases hfound : (Chunk.addressTable bs).find? (·.address = address) with
    | none => rfl
    | some record =>
      have hmember := hmembers record (List.mem_of_find?_eq_some hfound)
      have haddress : record.address = address := by simpa using List.find?_some hfound
      have hanswer : ((BloomFile.ofBytes content range').isMember record.address).fromStart =
          .ok (Bloom.holds content record.address) := BloomFile.isMember_ofBytes hholds _ 0
      rw [hanswer, haddress, hnot] at hmember
      cases hmember

/-- Over a coherent index, whatever way a scan is read to its end, it finds what the chunk files
hold of the address. -/
theorem Coherent.finds_perm (h : d.Coherent files chain blooms chunks)
    (hreadable : ∀ chunk ∈ chunks, ∃ bs, chunk.Readable files bs) {scan : Scan}
    (hfresh : scan.Fresh) (hsource : scan.source = d.source files chain)
    {outcome : Except Failure (List Appearance)} (hfinds : scan.Finds outcome) :
    ∃ apps, outcome = .ok apps ∧
      apps.Perm ((chunks.map ChunkEntry.name).flatMap (d.held files chain scan.address)) := by
  have hlist : scan.names? = .ok (RangeSource.rangeNames blooms) := by
    have hnames : scan.source.names = .ok blooms := by
      rw [hsource]
      exact h.bloomList
    unfold Scan.names?
    rw [hnames]
    rfl
  have hranges : scan.ranges = RangeSource.rangeNames blooms := by
    unfold Scan.ranges
    rw [hlist]
    rfl
  have hheld : ∀ name ∈ scan.ranges, ∃ b, scan.answer name = .ok b ∧
      scan.found name = .ok (d.held files chain scan.address name) ∧
      (b = false → d.held files chain scan.address name = []) := by
    intro name hmem
    rw [hranges, h.names] at hmem
    obtain ⟨chunk, hchunk, rfl⟩ := List.mem_map.mp hmem
    obtain ⟨bs, hbs⟩ := hreadable chunk hchunk
    unfold Scan.answer Scan.found
    rw [hsource]
    exact h.scan_held hchunk hbs
  have hsearchable : scan.Searchable scan.positives := by
    intro name hmem
    obtain ⟨b, -, hfound, -⟩ := hheld name (List.mem_of_mem_filter hmem)
    exact ⟨_, hfound⟩
  obtain ⟨apps, rfl, hperm⟩ := hfinds.perm hfresh ⟨_, hlist⟩
    (fun name hmem => (hheld name hmem).imp fun b hb => hb.1) hsearchable
  refine ⟨apps, rfl, hperm.trans ?_⟩
  have hall : scan.positives.flatMap scan.appearances =
      scan.ranges.flatMap (d.held files chain scan.address) := by
    refine Scan.flatMap_positives (fun name hmem => ?_) fun name hmem hpass => ?_
    · obtain ⟨b, -, hfound, -⟩ := hheld name hmem
      exact hfound
    · obtain ⟨b, hanswer, -, hnot⟩ := hheld name hmem
      unfold Scan.passes at hpass
      rw [hanswer] at hpass
      cases b with
      | true => cases hpass
      | false => exact hnot rfl
  have hsame : (RangeSource.rangeNames blooms).Perm (chunks.map ChunkEntry.name) :=
    (List.perm_ext_iff_of_nodup ((nodup_bloomNames h.bloomList).filter _)
      (ChunkEntry.nodup_list h.chunkList)).mpr h.names
  rw [hall, hranges]
  exact hsame.flatMap_right _

/-- A scan of a coherent index whose chunks can all be read succeeds. -/
theorem Coherent.succeeds (h : d.Coherent files chain blooms chunks)
    (hreadable : ∀ chunk ∈ chunks, ∃ bs, chunk.Readable files bs) {settings : ScanSettings}
    (hs : settings.Possible) (address : Address) :
    ∃ scan, Scan.start? (d.source files chain) chain address settings = some scan ∧
      scan.Succeeds ((chunks.map ChunkEntry.name).flatMap (d.held files chain address)) := by
  obtain ⟨scan, hscan, hfresh, hsource, rfl⟩ :=
    Scan.exists_start hs (d.source files chain) chain address
  refine ⟨scan, hscan, Scan.succeeds_of_finds hfresh.abandoned fun outcome hfinds => ?_⟩
  exact h.finds_perm hreadable hfresh hsource hfinds

/-- A scan of a chain whose filters cannot be listed fails. -/
theorem fails_of_unlisted (h : (d.bloomNames files chain).isOk = false) {settings : ScanSettings}
    (hs : settings.Possible) (address : Address) :
    ∃ scan, Scan.start? (d.source files chain) chain address settings = some scan ∧
      scan.Fails := by
  obtain ⟨scan, hscan, hfresh, hsource, -⟩ :=
    Scan.exists_start hs (d.source files chain) chain address
  refine ⟨scan, hscan, Scan.fails_of_unlisted hfresh ?_⟩
  rw [hsource]
  exact h

end IndexDirectory

end AppearanceIndex
