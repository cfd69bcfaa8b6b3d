import AppearanceIndex.Proofs.Chunk.Canonical
import AppearanceIndex.Proofs.Chunk.Search

/-!
# Reading undoes building

A chunk file that was opened mirrors a builder when it has the builder's counts, ends with its
tables, lists ascending addresses whose spans tile the appearance table, and gives for every address
what the builder holds of it (`ChunkFile.Mirrors`). What a builder lays out is opened under every
valid name and mirrors the builder (`ChunkBuilder.read_build`); since a builder is determined by the
appearances of each address, so are its bytes.
-/

namespace AppearanceIndex

/-- The file, opened from these bytes, says what the builder holds. -/
structure ChunkFile.Mirrors (file : ChunkFile) (bs : Bytes) (b : ChunkBuilder) : Prop where
  addressCount_eq : file.header.addressCount.toNat = b.addressCount
  appearanceCount_eq : file.header.appearanceCount.toNat = b.appearanceCount
  length_eq : bs.length = file.header.fileSize
  table : ∃ records, file.HasTable records ∧ records.Pairwise (·.address < ·.address) ∧
    Chunk.Tiling records b.appearanceCount
  gives : ∀ address, (file.getAppearances address).Gives (.ok (b.appearancesOf address))

namespace ChunkBuilder

theorem mirrors_build {b : ChunkBuilder} (h : b.WellFormed) (hc : b.appearanceCount < UInt32.size)
    (range : BlockRange) : (ChunkFile.ofBytes b.build range).Mirrors b.build b where
  addressCount_eq := by
    show (Chunk.header b.build).addressCount.toNat = b.addressCount
    rw [header_build, toNat_addressCount h hc]
    exact length_recordsFrom 0 b.entries
  appearanceCount_eq := by
    show (Chunk.header b.build).appearanceCount.toNat = b.appearanceCount
    rw [header_build, toNat_appearanceCount hc]
    exact length_flatMap_snd b.entries
  length_eq := (canonical_build h hc).length_eq
  table := by
    have htiling := tiling_records hc
    rw [← addressTable_build h hc] at htiling
    exact ⟨_, ChunkFile.hasTable_ofBytes (admitted_build h hc) range, ascending_addressTable h hc,
      htiling⟩
  gives address := by
    have hheld : ((Chunk.decoded b.build).filter (·.address = address)).map (·.appearance) =
        b.appearancesOf address := by
      rw [decoded_build h hc]
      exact filter_decodedOf h.ascending address
    rw [← hheld]
    exact ChunkFile.getAppearances_ofBytes (admitted_build h hc) (ascending_addressTable h hc)
      (fits_addressTable h hc) address

/-- What appearances say of each address decides the builder, in whatever order addresses take
turns. -/
theorem ofList_eq_of_filter {ds others : List DecodedAppearance}
    (h : ∀ address, (others.filter (·.address = address)).map (·.appearance) =
      (ds.filter (·.address = address)).map (·.appearance)) : ofList others = ofList ds := by
  apply (wellFormed_ofList others).ext (wellFormed_ofList ds)
  intro address
  rw [appearancesOf_ofList, appearancesOf_ofList, h address]

/-- Fewer than `2 ^ 32` appearances are laid out as a file that is opened under every valid name and
mirrors the builder. Of each address the builder holds what was added of it, in that order, and
these sequences alone decide the bytes. -/
theorem read_build (ds : List DecodedAppearance) (hd : ds.length < UInt32.size) :
    (∀ name range, BlockRange.parse? name = some range →
      ∃ file, (ChunkFile.openNamed (.ofBytes (ofList ds).build) name).Gives (.ok file) ∧
        file.range = range ∧ file.Mirrors (ofList ds).build (ofList ds)) ∧
    (∀ address, (ofList ds).appearancesOf address =
      (ds.filter (·.address = address)).map (·.appearance)) ∧
    ∀ others : List DecodedAppearance,
      (∀ address, (others.filter (·.address = address)).map (·.appearance) =
        (ds.filter (·.address = address)).map (·.appearance)) →
      (ofList others).build = (ofList ds).build := by
  have hwell := wellFormed_ofList ds
  have hcount : (ofList ds).appearanceCount < UInt32.size := by
    rw [appearanceCount_ofList]
    exact hd
  refine ⟨fun name range hname => ?_, appearancesOf_ofList ds, fun others hsame => ?_⟩
  · exact ⟨_, ChunkFile.openNamed_ofBytes hname (admitted_build hwell hcount), rfl,
      mirrors_build hwell hcount range⟩
  · rw [ofList_eq_of_filter hsame]

/-- Two addresses that take turns. -/
def interleaved : List DecodedAppearance :=
  [⟨.ofNat 2, ⟨10, 0⟩⟩, ⟨.ofNat 1, ⟨11, 3⟩⟩, ⟨.ofNat 2, ⟨10, 0⟩⟩, ⟨.ofNat 1, ⟨10, 1⟩⟩]

/-- The same, one address after the other. -/
def grouped : List DecodedAppearance :=
  [⟨.ofNat 2, ⟨10, 0⟩⟩, ⟨.ofNat 2, ⟨10, 0⟩⟩, ⟨.ofNat 1, ⟨11, 3⟩⟩, ⟨.ofNat 1, ⟨10, 1⟩⟩]

theorem read_build_interleaved :
    (∃ file, (ChunkFile.openNamed (.ofBytes (ofList interleaved).build) "10-19.bin").Gives
        (.ok file) ∧ file.header.addressCount.toNat = 2 ∧
      (file.getAppearances (.ofNat 1)).Gives (.ok [⟨11, 3⟩, ⟨10, 1⟩]) ∧
      (file.getAppearances (.ofNat 3)).Gives (.ok [])) ∧
    (ofList grouped).build = (ofList interleaved).build := by
  have hname : BlockRange.parse? "10-19.bin" = some ⟨10, 19⟩ := by decide +kernel
  obtain ⟨hread, hheld, hbytes⟩ := read_build interleaved (by decide)
  obtain ⟨file, hopen, -, hmirrors⟩ := hread "10-19.bin" _ hname
  have hone : (file.getAppearances (.ofNat 1)).Gives (.ok [⟨11, 3⟩, ⟨10, 1⟩]) := by
    have hgives := hmirrors.gives (.ofNat 1)
    rwa [hheld] at hgives
  have hthree : (file.getAppearances (.ofNat 3)).Gives (.ok []) := by
    have hgives := hmirrors.gives (.ofNat 3)
    rwa [hheld] at hgives
  refine ⟨⟨file, hopen, hmirrors.addressCount_eq, hone, hthree⟩, hbytes grouped fun address => ?_⟩
  by_cases htwo : Address.ofNat 2 = address
  · subst htwo
    decide
  · simp [grouped, interleaved, List.filter_cons, htwo]

end ChunkBuilder

end AppearanceIndex
