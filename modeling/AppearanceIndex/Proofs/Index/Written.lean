import AppearanceIndex.Proofs.Bloom.Exact
import AppearanceIndex.Proofs.Chunk.Written
import AppearanceIndex.Proofs.Files.Filed
import AppearanceIndex.Proofs.Index.Coherent
import AppearanceIndex.Proofs.Ingest.Sound
import AppearanceIndex.Proofs.Text.RangeName

/-!
# Indexes that were written

Ranges that are written one after another into empty directories of a chain fill these with one
filter and one chunk for each range (`IndexDirectory.Written`). Such an index is coherent, its
chunks are sound and are listed from the newest range to the oldest, and each holds of an address
what was added to its range.
-/

namespace AppearanceIndex

/-- A range and what is added to its chunk, in the order in which it is added. -/
abbrev RangeContent := BlockRange × List DecodedAppearance

namespace RangeContent

/-- The builder of the chunk. -/
def builder (p : RangeContent) : ChunkBuilder := ChunkBuilder.ofList p.2

/-- The name and the bytes of the bloom file. -/
def bloomEntry (p : RangeContent) : String × Bytes :=
  (p.1.fileStem ++ ".bloom", p.builder.bloom.build)

/-- The name and the bytes of the chunk file. -/
def chunkEntry (p : RangeContent) : String × Bytes := (p.1.fileStem ++ ".bin", p.builder.build)

/-- The bounds of the range are in order, and the chunk can count its appearances. -/
structure Proper (p : RangeContent) : Prop where
  ordered : p.1.first ≤ p.1.last
  few : p.2.length < UInt32.size

theorem wellFormed (p : RangeContent) : p.builder.WellFormed := ChunkBuilder.wellFormed_ofList p.2

theorem Proper.appearanceCount_lt {p : RangeContent} (h : p.Proper) :
    p.builder.appearanceCount < UInt32.size := by
  unfold builder
  rw [ChunkBuilder.appearanceCount_ofList]
  exact h.few

theorem Proper.blocks_lt {p : RangeContent} (h : p.Proper) :
    p.builder.bloom.blocks.length < 2 ^ 31 := by
  have hcount := h.appearanceCount_lt
  have haddresses := p.wellFormed.addressCount_le
  have hlength : p.builder.addresses.length = p.builder.addressCount := List.length_map _
  have hsize : UInt32.size = 4294967296 := rfl
  have hcapacity : max BloomBuilder.maxAddresses 1 = 50000 := rfl
  unfold ChunkBuilder.bloom
  rw [BloomBuilder.length_blocks_ofList, BloomBuilder.blocksFor, hlength, hcapacity]
  omega

end RangeContent

namespace IndexDirectory

def writeRanges (d : IndexDirectory) (files : FileStore) (chain : String)
    (pairs : List RangeContent) : Except IoError FileStore :=
  pairs.foldlM (fun files pair => d.writeRange files chain pair.1 pair.builder) files

/-- The directories of a chain hold nothing, if they are there. -/
structure Vacant (d : IndexDirectory) (files : FileStore) (chain : String) : Prop where
  blooms : ∀ name, files.node? (files.target (d.bloomDirectory chain) ++ [name]) = none
  chunks : ∀ name, files.node? (files.target (d.chunkDirectory chain) ++ [name]) = none

/-- The directories of a chain hold what was written of these ranges. -/
structure Written (d : IndexDirectory) (chain : String) (start files : FileStore)
    (pairs : List RangeContent) : Prop where
  blooms : FileStore.Filed (d.bloomDirectory chain) start files (pairs.map RangeContent.bloomEntry)
  chunks : FileStore.Filed (d.chunkDirectory chain) start files (pairs.map RangeContent.chunkEntry)

/-! ## Writing one range -/

theorem plain_of_stem (r : BlockRange) {ending : String} (he : '/' ∉ ending.toList) :
    FileName.Plain (r.fileStem ++ ending) := by
  have hdot : '.' ∉ r.fileStem.toList := r.not_mem_stem (by decide) (by decide)
  have hslash : '/' ∉ r.fileStem.toList := r.not_mem_stem (by decide) (by decide)
  have hne : r.fileStem.toList ≠ [] := fun hnil =>
    r.fileStem_ne_empty (String.toList_inj.mp (by simpa using hnil))
  obtain ⟨c, cs, hcs⟩ := List.exists_cons_of_ne_nil hne
  have hc : c ≠ '.' := by
    rintro rfl
    rw [hcs] at hdot
    exact hdot List.mem_cons_self
  have hfirst : ∀ other : String, other.toList.head? = some '.' → r.fileStem ++ ending ≠ other := by
    rintro other hother rfl
    rw [String.toList_append, hcs, List.cons_append, List.head?_cons, Option.some.injEq] at hother
    exact hc hother
  refine ⟨?_, ?_, hfirst "." rfl, hfirst ".." rfl⟩
  · intro hempty
    have hlist := congrArg String.toList hempty
    rw [String.toList_append, hcs] at hlist
    cases hlist
  · rw [String.toList_append, List.mem_append, not_or]
    exact ⟨hslash, he⟩

theorem plain_blooms : FileName.Plain "blooms" := ⟨by decide, by decide, by decide, by decide⟩

theorem plain_finalized : FileName.Plain "finalized" :=
  ⟨by decide, by decide, by decide, by decide⟩

theorem append_right_inj {a b ending : String} (h : a ++ ending = b ++ ending) : a = b := by
  refine String.toList_inj.mp ?_
  have hlist := congrArg String.toList h
  rw [String.toList_append, String.toList_append] at hlist
  exact List.append_cancel_right hlist

variable {d : IndexDirectory} {chain : String} {start files t : FileStore}
  {pairs : List RangeContent} {pair : RangeContent}

/-- The name of a new range is new. -/
theorem not_mem_names (hp : ∀ p ∈ pairs, p.Proper) (hpair : pair.Proper)
    (hnew : pair.1 ∉ pairs.map Prod.fst) (ending : String) :
    pair.1.fileStem ++ ending ∉ pairs.map fun p => p.1.fileStem ++ ending := by
  intro hmem
  obtain ⟨p, hmem, heq⟩ := List.mem_map.mp hmem
  have hsame := BlockRange.fileStem_inj (hp p hmem).ordered hpair.ordered (append_right_inj heq)
  exact hnew (hsame ▸ List.mem_map_of_mem hmem)

theorem places_ne (start : FileStore) (base : Path) (name other : String) :
    start.target (base.entry "blooms") ++ [name] ≠
      start.target (base.entry "finalized") ++ [other] := by
  rw [FileStore.target_entry plain_blooms, FileStore.target_entry plain_finalized,
    List.append_assoc, List.append_assoc]
  intro heq
  have hnames := List.append_cancel_left heq
  have hfirst : "blooms" = "finalized" := by
    simpa using (List.cons.inj hnames).1
  exact absurd hfirst (by decide)

theorem writeRange_eq_ok {range : BlockRange} {chunk : ChunkBuilder}
    (h : d.writeRange files chain range chunk = .ok t) :
    ∃ made filter both,
      files.createDirectories (d.bloomDirectory chain) = .ok made ∧
      made.write (d.bloomPath chain range.fileStem) chunk.bloom.build = .ok filter ∧
      filter.createDirectories (d.chunkDirectory chain) = .ok both ∧
      both.write (d.chunkPath chain range.fileStem) chunk.build = .ok t := by
  unfold writeRange at h
  simp only [bind, Except.bind] at h
  split at h
  · cases h
  · next made hmade =>
    split at h
    · cases h
    · next filter hfilter =>
      split at h
      · cases h
      · next both hboth => exact ⟨made, filter, both, hmade, hfilter, hboth, h⟩

/-- A range that is written is one more. -/
theorem Written.writeRange (h : d.Written chain start files pairs) (hp : ∀ p ∈ pairs, p.Proper)
    (hpair : pair.Proper) (hnew : pair.1 ∉ pairs.map Prod.fst)
    (hw : d.writeRange files chain pair.1 pair.builder = .ok t) :
    d.Written chain start t (pairs ++ [pair]) := by
  obtain ⟨made, filter, both, hmade, hfilter, hboth, hchunk⟩ := writeRange_eq_ok hw
  have hbloomName : FileName.Plain (pair.1.fileStem ++ ".bloom") := plain_of_stem _ (by decide)
  have hchunkName : FileName.Plain (pair.1.fileStem ++ ".bin") := plain_of_stem _ (by decide)
  have hnewBloom : pair.1.fileStem ++ ".bloom" ∉
      (pairs.map RangeContent.bloomEntry).map Prod.fst := by
    rw [List.map_map]
    exact not_mem_names hp hpair hnew ".bloom"
  have hnewChunk : pair.1.fileStem ++ ".bin" ∉
      (pairs.map RangeContent.chunkEntry).map Prod.fst := by
    rw [List.map_map]
    exact not_mem_names hp hpair hnew ".bin"
  -- the directory of the filters is made and its new file written
  obtain ⟨hgrows, hbloomMade⟩ :=
    FileStore.createDirectories_eq_ok hmade (Path.text_entry_ne plain_blooms)
  rw [h.blooms.target_eq] at hbloomMade
  have hblooms := h.blooms.grows hgrows
  have hchunks := h.chunks.grows hgrows
  obtain ⟨hgains, -⟩ := hblooms.write_eq_ok hbloomName hfilter
  have hblooms' := hblooms.write hbloomName hnewBloom hbloomMade hfilter
  have hchunks' := hchunks.gains hgains fun name heq => places_ne start _ _ _ heq.symm
  -- then the same for the chunks
  obtain ⟨hgrows', hchunkMade⟩ :=
    FileStore.createDirectories_eq_ok hboth (Path.text_entry_ne plain_finalized)
  rw [hchunks'.target_eq] at hchunkMade
  have hchunks'' := hchunks'.grows hgrows'
  obtain ⟨hgains', -⟩ := hchunks''.write_eq_ok hchunkName hchunk
  refine ⟨?_, ?_⟩
  · rw [List.map_append]
    exact (hblooms'.grows hgrows').gains hgains' fun name => places_ne start _ _ _
  · rw [List.map_append]
    exact hchunks''.write hchunkName hnewChunk hchunkMade hchunk

/-- Writing ranges one after another writes them all. -/
theorem written_of_writeRanges (hv : d.Vacant start chain) (hp : ∀ p ∈ pairs, p.Proper)
    (hn : (pairs.map Prod.fst).Nodup) (h : d.writeRanges start chain pairs = .ok files) :
    d.Written chain start files pairs := by
  have hall : ∀ (more done : List RangeContent) (now : FileStore),
      (∀ p ∈ done ++ more, p.Proper) → ((done ++ more).map Prod.fst).Nodup →
      d.Written chain start now done → d.writeRanges now chain more = .ok files →
        d.Written chain start files (done ++ more) := by
    intro more
    induction more with
    | nil =>
      intro done now _ _ hdone hw
      cases hw
      rw [List.append_nil]
      exact hdone
    | cons pair more ih =>
      intro done now hp hn hdone hw
      unfold writeRanges at hw
      rw [List.foldlM_cons] at hw
      cases hone : d.writeRange now chain pair.1 pair.builder with
      | error e =>
        rw [hone] at hw
        cases hw
      | ok next =>
        rw [hone] at hw
        have hnew : pair.1 ∉ done.map Prod.fst := by
          rw [List.map_append, List.nodup_append] at hn
          intro hmem
          exact hn.2.2 _ hmem _ (by simp) rfl
        rw [List.append_cons] at hp hn ⊢
        refine ih _ next hp hn (hdone.writeRange ?_ ?_ hnew hone) hw
        · exact fun p hmem => hp p (by simp [hmem])
        · exact hp pair (by simp)
  have hnone : d.Written chain start start [] :=
    ⟨FileStore.filed_nil hv.blooms, FileStore.filed_nil hv.chunks⟩
  exact hall pairs [] start hp hn hnone h

end IndexDirectory

end AppearanceIndex
