import AppearanceIndex.Proofs.Index.Written
import Mathlib.Data.List.Nodup

/-!
# Reading back what was written

The bloom files and the chunk files that are listed in a written index are those of its ranges, the
chunk files from the newest range to the oldest. The index is coherent, its chunks are sound, and a
chunk holds of an address what was added to its range.
-/

namespace AppearanceIndex

namespace FileStore

variable {directory : Path} {start files : FileStore} {entries : List (String × Bytes)}

/-- What a listing selects among regular files is selected among those that were written. -/
theorem Filed.filterMap_listed (h : Filed directory start files entries) (hne : entries ≠ [])
    {α : Type} {f : String × FileNode → Option α} (hf : ∀ name, f (name, .directory) = none) :
    ∃ listed, files.readDirectory directory = .ok listed ∧
      ∀ a, a ∈ listed.filterMap f ↔ ∃ entry ∈ entries, f (entry.1, .file entry.2) = some a := by
  obtain ⟨listed, hread, hall, hknown⟩ := h.readDirectory hne
  refine ⟨listed, hread, fun a => ?_⟩
  rw [List.mem_filterMap]
  constructor
  · rintro ⟨⟨name, node⟩, hmem, ha⟩
    rcases hknown name node hmem with rfl | ⟨bs, hentry, rfl⟩
    · rw [hf] at ha
      cases ha
    · exact ⟨_, hentry, ha⟩
  · rintro ⟨entry, hentry, ha⟩
    exact ⟨_, hall entry hentry, ha⟩

end FileStore

namespace IndexDirectory

variable {d : IndexDirectory} {chain : String} {start files : FileStore}
  {pairs : List RangeContent}

/-- The entry of a range among the chunk files of a chain. -/
def entryOf (d : IndexDirectory) (chain : String) (p : RangeContent) : ChunkEntry :=
  ⟨d.chunkPath chain p.1.fileStem, p.1.fileStem, p.1⟩

/-! ## Listings -/

theorem stemOfFile?_stem {extension : String} (he : '.' ∉ extension.toList) (r : BlockRange)
    (bs : Bytes) : stemOfFile? extension (r.fileStem ++ "." ++ extension, .file bs) =
      some r.fileStem := by
  have hstem := FileName.stemIf?_append r.fileStem_ne_empty he
  exact hstem

theorem stemOfFile?_bloomEntry (p : RangeContent) :
    stemOfFile? "bloom" (p.bloomEntry.1, .file p.bloomEntry.2) = some p.1.fileStem := by
  have hname : p.bloomEntry.1 = p.1.fileStem ++ "." ++ "bloom" := by
    rw [String.append_assoc]
    rfl
  rw [hname]
  exact stemOfFile?_stem (by decide) _ _

theorem stemOfFile?_chunkEntry (p : RangeContent) :
    stemOfFile? "bin" (p.chunkEntry.1, .file p.chunkEntry.2) = some p.1.fileStem := by
  have hname : p.chunkEntry.1 = p.1.fileStem ++ "." ++ "bin" := by
    rw [String.append_assoc]
    rfl
  rw [hname]
  exact stemOfFile?_stem (by decide) _ _

theorem ofListed?_chunkEntry {p : RangeContent} (hp : p.Proper) :
    ChunkEntry.ofListed? (d.chunkDirectory chain) ⟨none, none⟩
      (p.chunkEntry.1, .file p.chunkEntry.2) = some (d.entryOf chain p) := by
  unfold ChunkEntry.ofListed?
  rw [stemOfFile?_chunkEntry]
  simp only [bind, Option.bind, BlockRange.parse?_fileStem hp.ordered]
  rfl

theorem nodup_stems (hp : ∀ p ∈ pairs, p.Proper) (hn : (pairs.map Prod.fst).Nodup) :
    (pairs.map fun p => p.1.fileStem).Nodup := by
  have hpairs := List.pairwise_map.mp hn
  refine List.pairwise_map.mpr (hpairs.imp_of_mem fun {p q} hmem hmem' hne heq => hne ?_)
  exact BlockRange.fileStem_inj (hp p hmem).ordered (hp q hmem').ordered heq

theorem Written.bloomNames (h : d.Written chain start files pairs) (hne : pairs ≠ [])
    (hp : ∀ p ∈ pairs, p.Proper) (hn : (pairs.map Prod.fst).Nodup) :
    ∃ names, d.bloomNames files chain = .ok names ∧
      names.Perm (pairs.map fun p => p.1.fileStem) := by
  have hentries : pairs.map RangeContent.bloomEntry ≠ [] := by simpa using hne
  obtain ⟨listed, hread, hmem⟩ := h.blooms.filterMap_listed hentries
    (f := stemOfFile? "bloom") fun _ => rfl
  have hnames : d.bloomNames files chain =
      .ok ((listed.filterMap (stemOfFile? "bloom")).mergeSort fun a b => a ≤ b) := by
    unfold IndexDirectory.bloomNames
    simp only [hread]
    rfl
  refine ⟨_, hnames, (List.perm_ext_iff_of_nodup (nodup_bloomNames hnames)
    (nodup_stems hp hn)).mpr fun name => ?_⟩
  rw [(List.mergeSort_perm _ _).mem_iff, hmem, List.mem_map]
  constructor
  · rintro ⟨entry, hentry, hname⟩
    obtain ⟨p, hmem, rfl⟩ := List.mem_map.mp hentry
    rw [stemOfFile?_bloomEntry, Option.some.injEq] at hname
    exact ⟨p, hmem, hname⟩
  · rintro ⟨p, hmem, rfl⟩
    exact ⟨_, List.mem_map_of_mem hmem, stemOfFile?_bloomEntry p⟩

/-- The chunk files of a written index are listed from the newest range to the oldest. -/
theorem Written.chunkList (h : d.Written chain start files pairs) (hne : pairs ≠ [])
    (hp : ∀ p ∈ pairs, p.Proper) (hn : (pairs.map Prod.fst).Nodup) :
    ∃ order : List RangeContent, order.Perm pairs ∧
      order.Pairwise (fun p q => q.1.cmp p.1 = .lt) ∧
      ChunkEntry.list files (d.chunkDirectory chain) ⟨none, none⟩ =
        .ok (order.map (d.entryOf chain)) := by
  have hentries : pairs.map RangeContent.chunkEntry ≠ [] := by simpa using hne
  obtain ⟨listed, hread, hmem⟩ := h.chunks.filterMap_listed hentries
    (f := ChunkEntry.ofListed? (d.chunkDirectory chain) ⟨none, none⟩) fun _ => rfl
  have hlist : ChunkEntry.list files (d.chunkDirectory chain) ⟨none, none⟩ =
      .ok (ChunkEntry.ofListing (d.chunkDirectory chain) ⟨none, none⟩ listed) := by
    unfold ChunkEntry.list
    simp only [hread]
    rfl
  have hnodup := List.Nodup.of_map ChunkEntry.name (ChunkEntry.nodup_list hlist)
  have hnodupEntries : (pairs.map (d.entryOf chain)).Nodup := by
    have hstems := nodup_stems hp hn
    refine List.Nodup.of_map ChunkEntry.name ?_
    rw [List.map_map]
    exact hstems
  have hperm : (ChunkEntry.ofListing (d.chunkDirectory chain) ⟨none, none⟩ listed).Perm
      (pairs.map (d.entryOf chain)) := by
    refine (List.perm_ext_iff_of_nodup hnodup hnodupEntries).mpr fun chunk => ?_
    unfold ChunkEntry.ofListing
    rw [(List.mergeSort_perm _ _).mem_iff, hmem, List.mem_map]
    constructor
    · rintro ⟨entry, hentry, hchunk⟩
      obtain ⟨p, hmem, rfl⟩ := List.mem_map.mp hentry
      rw [ofListed?_chunkEntry (hp p hmem), Option.some.injEq] at hchunk
      exact ⟨p, hmem, hchunk⟩
    · rintro ⟨p, hmem, rfl⟩
      exact ⟨_, List.mem_map_of_mem hmem, ofListed?_chunkEntry (hp p hmem)⟩
  obtain ⟨order, horder, hpairs⟩ :=
    (congrFun (congrFun (List.eq_map_comp_perm (d.entryOf chain)) _) pairs).mpr hperm
  have hlisted : ChunkEntry.list files (d.chunkDirectory chain) ⟨none, none⟩ =
      .ok (order.map (d.entryOf chain)) := by
    rw [hlist]
    exact congrArg Except.ok horder
  refine ⟨order, hpairs, ?_, hlisted⟩
  have hsorted := List.pairwise_map.mp (ChunkEntry.pairwise_noOlder hlisted)
  have hdistinct := List.pairwise_map.mp ((hpairs.map Prod.fst).nodup_iff.mpr hn)
  refine (hsorted.and hdistinct).imp ?_
  rintro p q ⟨hle, hne⟩
  rcases Ordering.isLE_iff_eq_lt_or_eq_eq.mp hle with hlt | heq
  · exact hlt
  · exact absurd (BlockRange.eq_of_cmp heq).symm hne

/-! ## Contents -/

theorem Written.contentOf (h : d.Written chain start files pairs) {p : RangeContent}
    (hmem : p ∈ pairs) : files.contentOf (d.entryOf chain p).path = .ok p.builder.build := by
  have hentry : p.chunkEntry ∈ pairs.map RangeContent.chunkEntry := List.mem_map_of_mem hmem
  exact h.chunks.contentOf hentry

/-- A chunk that was written holds what it declares. -/
theorem Written.sound (h : d.Written chain start files pairs) {p : RangeContent} (hp : p.Proper)
    (hmem : p ∈ pairs) : (d.entryOf chain p).Sound files p.builder.build where
  read := h.contentOf hmem
  named := ⟨p.1, BlockRange.parse?_fileStem hp.ordered⟩
  admitted := ChunkBuilder.admitted_build p.wellFormed hp.appearanceCount_lt
  fits := ChunkBuilder.fits_addressTable p.wellFormed hp.appearanceCount_lt
  count := by
    have hcount := hp.appearanceCount_lt
    rw [ChunkBuilder.decoded_build p.wellFormed hcount, ChunkBuilder.header_build,
      ChunkBuilder.toNat_appearanceCount hcount, ChunkBuilder.length_flatMap_snd]
    exact ChunkBuilder.length_decodedOf _

/-- A bloom file that was written opens as what was written. -/
theorem Written.bloomOpens (h : d.Written chain start files pairs) {p : RangeContent}
    (hp : p.Proper) (hmem : p ∈ pairs) {bloom : BloomFile} :
    d.BloomOpens files chain (d.entryOf chain p).name bloom ↔
      bloom = BloomFile.ofBytes p.builder.bloom.build p.1 := by
  have hread : files.openRead (d.bloomPath chain p.1.fileStem) =
      .ok (.content p.builder.bloom.build) := by
    have hentry : p.bloomEntry ∈ pairs.map RangeContent.bloomEntry := List.mem_map_of_mem hmem
    exact h.blooms.openRead hentry
  have hopen : (BloomFile.openNamed (.ofBytes p.builder.bloom.build) p.1.fileStem).fromStart =
      .ok (BloomFile.ofBytes p.builder.bloom.build p.1) :=
    BloomFile.openNamed_ofBytes (BlockRange.parse?_fileStem hp.ordered)
      (BloomBuilder.admitted_build hp.blocks_lt) 0
  constructor
  · rintro ⟨bs, hbs, hbloom⟩
    have hsame := hread.symm.trans hbs
    rw [Except.ok.injEq, OpenedFile.content.injEq] at hsame
    subst hsame
    exact (Except.ok.inj (hopen.symm.trans hbloom)).symm
  · rintro rfl
    exact ⟨_, hread, hopen⟩

/-- A written index is coherent. -/
theorem Written.coherent (h : d.Written chain start files pairs) (hp : ∀ p ∈ pairs, p.Proper)
    {order : List RangeContent} (ho : order.Perm pairs) {names : List String}
    (hnames : d.bloomNames files chain = .ok names)
    (hperm : names.Perm (pairs.map fun p => p.1.fileStem))
    (hlist : ChunkEntry.list files (d.chunkDirectory chain) ⟨none, none⟩ =
      .ok (order.map (d.entryOf chain))) :
    d.Coherent files chain names (order.map (d.entryOf chain)) where
  bloomList := hnames
  chunkList := hlist
  names := by
    intro name
    have hsame : (order.map (d.entryOf chain)).map ChunkEntry.name =
        order.map fun p => p.1.fileStem := List.map_map
    rw [hsame, (ho.map _).mem_iff, ← hperm.mem_iff]
    unfold RangeSource.rangeNames
    rw [List.mem_filter, and_iff_left_iff_imp]
    intro hmem
    obtain ⟨p, hin, rfl⟩ := List.mem_map.mp (hperm.subset hmem)
    rw [BlockRange.parse?_fileStem (hp p hin).ordered]
    rfl
  ascending := by
    intro chunk hchunk bs hread
    obtain ⟨p, hmem, rfl⟩ := List.mem_map.mp hchunk
    have hin := ho.subset hmem
    have hsame := (h.contentOf hin).symm.trans hread
    rw [Except.ok.injEq] at hsame
    subst hsame
    exact ChunkBuilder.ascending_addressTable p.wellFormed (hp p hin).appearanceCount_lt
  opens := by
    intro chunk hchunk
    obtain ⟨p, hmem, rfl⟩ := List.mem_map.mp hchunk
    exact ⟨_, (h.bloomOpens (hp p (ho.subset hmem)) (ho.subset hmem)).mpr rfl⟩
  members := by
    intro chunk hchunk bloom hbloom bs hread record hrecord
    obtain ⟨p, hmem, rfl⟩ := List.mem_map.mp hchunk
    have hin := ho.subset hmem
    rw [h.bloomOpens (hp p hin) hin] at hbloom
    subst hbloom
    have hsame := (h.contentOf hin).symm.trans hread
    rw [Except.ok.injEq] at hsame
    subst hsame
    have haddress : record.address ∈ p.builder.addresses := by
      rw [ChunkBuilder.addressTable_build p.wellFormed (hp p hin).appearanceCount_lt] at hrecord
      unfold ChunkBuilder.addresses
      rw [← ChunkBuilder.map_address_recordsFrom 0]
      exact List.mem_map_of_mem hrecord
    have hholds : Bloom.holds p.builder.bloom.build record.address = true :=
      (BloomBuilder.holds_build (hp p hin).blocks_lt _).mpr (BloomBuilder.covers_ofList _ haddress)
    have hadmitted := BloomBuilder.admitted_build (hp p hin).blocks_lt
    rw [← hholds]
    exact BloomFile.isMember_ofBytes hadmitted record.address 0

/-- A chunk holds of an address what was added of it. -/
theorem Written.held_perm (h : d.Written chain start files pairs) {p : RangeContent}
    (hp : p.Proper) (hmem : p ∈ pairs) (address : Address) :
    (d.held files chain address p.1.fileStem).Perm (p.builder.appearancesOf address) := by
  unfold held
  have hread : files.contentOf (d.chunkPath chain p.1.fileStem) = .ok p.builder.build :=
    h.contentOf hmem
  rw [hread]
  simp only
  rw [ChunkBuilder.decoded_build p.wellFormed hp.appearanceCount_lt]
  unfold RangeContent.builder
  rw [ChunkBuilder.appearancesOf_ofList]
  exact ((ChunkBuilder.decoded_ofList_perm p.2).filter _).map _

end IndexDirectory

end AppearanceIndex
