import AppearanceIndex.Index.Chunks
import AppearanceIndex.Proofs.Files.Name
import AppearanceIndex.Proofs.Text.RangeOrder

/-!
# What the listings name

A directory holds each name once, so the stems of its bloom files and the names of its chunk files
are all different. Listed are the chunk files that lie in the directory (`ChunkEntry.LiesIn`) and
that the window admits, the newest range first.
-/

namespace AppearanceIndex

theorem FileStore.nodup_readDirectory {files : FileStore} {path : Path}
    {entries : List (String × FileNode)} (h : files.readDirectory path = .ok entries) :
    entries.Pairwise (·.1 ≠ ·.1) := by
  unfold readDirectory at h
  cases hp : files.locate path with
  | error e =>
    rw [hp] at h
    cases h
  | ok place =>
    rw [hp] at h
    simp only [bind, Except.bind] at h
    split at h
    · cases h
    · cases h
      have hplaces := List.pairwise_map.mp files.nodup
      refine hplaces.filterMap _ ?_
      rintro ⟨a, node⟩ ⟨b, other⟩ hab entry hentry entry' hentry' heq
      simp only at hentry hentry'
      split at hentry
      · split at hentry'
        · split at hentry
          · split at hentry'
            · next hb ha =>
              cases hentry
              cases hentry'
              simp only at heq
              exact hab (by rw [ha, hb, heq])
            · cases hentry'
          · cases hentry
        · cases hentry'
      · cases hentry
    · cases h

namespace IndexDirectory

theorem eq_of_stemOfFile? {extension stem : String} {entry : String × FileNode}
    (h : stemOfFile? extension entry = some stem) :
    ∃ content limits, entry = (stem ++ "." ++ extension, .file content limits) := by
  unfold stemOfFile? at h
  split at h
  · next name content limits =>
    rw [FileName.eq_of_stemIf? h]
    exact ⟨content, limits, rfl⟩
  · cases h

theorem nodup_bloomNames {d : IndexDirectory} {files : FileStore} {chain : String}
    {names : List String} (h : d.bloomNames files chain = .ok names) : names.Nodup := by
  unfold bloomNames at h
  cases hread : files.readDirectory (d.bloomDirectory chain) with
  | error e =>
    simp only [hread, Activity.ofIo] at h
    cases h
  | ok entries =>
    simp only [hread, Activity.ofIo] at h
    cases h
    refine (List.mergeSort_perm _ _).nodup_iff.mpr ?_
    refine (FileStore.nodup_readDirectory hread).filterMap _ ?_
    intro a b hab stem hstem stem' hstem' heq
    obtain ⟨content, limits, rfl⟩ := eq_of_stemOfFile? hstem
    obtain ⟨content', limits', rfl⟩ := eq_of_stemOfFile? hstem'
    exact hab (by rw [heq])

end IndexDirectory

namespace BlockRange

theorem parse?_empty : parse? "" = none := by decide

end BlockRange

namespace ChunkEntry

/-- Among the entries of the directory is a regular file of this name, and the name stands for the
range. -/
structure LiesIn (chunk : ChunkEntry) (directory : Path) (entries : List (String × FileNode)) :
    Prop where
  path : chunk.path = directory.entry (chunk.name ++ ".bin")
  file : ∃ content limits, (chunk.name ++ ".bin", .file content limits) ∈ entries
  parsed : BlockRange.parse? chunk.name = some chunk.range

variable {files : FileStore} {directory : Path} {window : BlockWindow} {chunks : List ChunkEntry}
  {entries : List (String × FileNode)}

/-! ### Which files are listed -/

theorem ofListed?_eq_some_iff {entry : String × FileNode} {chunk : ChunkEntry} :
    ofListed? directory window entry = some chunk ↔
      (∃ content limits, entry = (chunk.name ++ ".bin", .file content limits)) ∧
        chunk.path = directory.entry (chunk.name ++ ".bin") ∧
        BlockRange.parse? chunk.name = some chunk.range ∧ window.admits chunk.range = true := by
  have hextension : ∀ name : String, name ++ "." ++ "bin" = name ++ ".bin" :=
    fun name => String.append_assoc
  unfold ofListed?
  constructor
  · intro h
    obtain ⟨name, hname, h⟩ := Option.bind_eq_some_iff.mp h
    obtain ⟨range, hrange, h⟩ := Option.bind_eq_some_iff.mp h
    obtain ⟨content, limits, rfl⟩ := IndexDirectory.eq_of_stemOfFile? hname
    split at h
    · next hadmits =>
      cases h
      rw [hextension]
      exact ⟨⟨content, limits, rfl⟩, rfl, hrange, hadmits⟩
    · cases h
  · rintro ⟨⟨content, limits, rfl⟩, hpath, hrange, hadmits⟩
    have hname : chunk.name ≠ "" := by
      intro hempty
      rw [hempty, BlockRange.parse?_empty] at hrange
      cases hrange
    have hstem : IndexDirectory.stemOfFile? "bin" (chunk.name ++ ".bin", .file content limits) =
        some chunk.name := by
      rw [← hextension]
      exact FileName.stemIf?_append hname (by decide)
    simp only [hstem, hrange, bind, Option.bind, hadmits, if_true, ← hpath]

theorem mem_ofListing_iff {chunk : ChunkEntry} : chunk ∈ ofListing directory window entries ↔
    chunk.LiesIn directory entries ∧ window.admits chunk.range = true := by
  unfold ofListing
  rw [List.mem_mergeSort, List.mem_filterMap]
  constructor
  · rintro ⟨entry, hmem, hentry⟩
    obtain ⟨⟨content, limits, rfl⟩, hpath, hparsed, hadmits⟩ := ofListed?_eq_some_iff.mp hentry
    exact ⟨⟨hpath, ⟨content, limits, hmem⟩, hparsed⟩, hadmits⟩
  · rintro ⟨⟨hpath, ⟨content, limits, hmem⟩, hparsed⟩, hadmits⟩
    exact ⟨_, hmem, ofListed?_eq_some_iff.mpr ⟨⟨content, limits, rfl⟩, hpath, hparsed, hadmits⟩⟩

/-- Where each name stands once among the entries, it is listed once. -/
theorem nodup_ofListing (h : entries.Pairwise (·.1 ≠ ·.1)) :
    ((ofListing directory window entries).map ChunkEntry.name).Nodup := by
  refine ((List.mergeSort_perm _ _).map _).nodup_iff.mpr (List.pairwise_map.mpr ?_)
  refine h.filterMap _ ?_
  intro a b hab chunk hchunk chunk' hchunk' heq
  obtain ⟨⟨content, limits, rfl⟩, -⟩ := ofListed?_eq_some_iff.mp hchunk
  obtain ⟨⟨content', limits', rfl⟩, -⟩ := ofListed?_eq_some_iff.mp hchunk'
  exact hab (by rw [heq])

theorem noOlder_iff {a b : ChunkEntry} : a.noOlder b = true ↔
    b.range.first.toNat < a.range.first.toNat ∨
      (b.range.first.toNat = a.range.first.toNat ∧
        b.range.last.toNat ≤ a.range.last.toNat) := BlockRange.isLE_cmp_iff

theorem pairwise_ofListing (directory : Path) (window : BlockWindow)
    (entries : List (String × FileNode)) :
    (ofListing directory window entries).Pairwise fun a b => a.noOlder b = true := by
  refine List.pairwise_mergeSort ?_ ?_ _
  · intro a b c hab hbc
    rw [noOlder_iff] at hab hbc ⊢
    omega
  · intro a b
    rw [Bool.or_eq_true, noOlder_iff, noOlder_iff]
    omega

/-- Chunk files that are found in the order of the listing are the listing. -/
theorem ofListing_of_sorted (hfound : entries.filterMap (ofListed? directory window) = chunks)
    (hsorted : chunks.Pairwise fun a b => a.noOlder b = true) :
    ofListing directory window entries = chunks := by
  rw [ofListing, hfound, List.mergeSort_of_pairwise hsorted]

/-! ### Listings of a store -/

theorem list_of_readDirectory (h : files.readDirectory directory = .ok entries)
    (window : BlockWindow) :
    list files directory window = .ok (ofListing directory window entries) := by
  unfold list
  rw [h]
  rfl

theorem list_eq_ok (h : list files directory window = .ok chunks) :
    ∃ entries, files.readDirectory directory = .ok entries ∧
      chunks = ofListing directory window entries := by
  cases hread : files.readDirectory directory with
  | error e =>
    simp only [list, hread, Activity.ofIo] at h
    cases h
  | ok entries =>
    rw [list_of_readDirectory hread] at h
    cases h
    exact ⟨entries, rfl, rfl⟩

/-- Chunk files that lie in a directory in the order of the listing are the listing. -/
theorem list_of_sorted (hfound : (files.readDirectory directory).toOption.map
      (·.filterMap (ofListed? directory window)) = some chunks)
    (hsorted : chunks.Pairwise fun a b => a.noOlder b = true) :
    list files directory window = .ok chunks := by
  cases hread : files.readDirectory directory with
  | error e =>
    rw [hread] at hfound
    cases hfound
  | ok entries =>
    rw [hread] at hfound
    rw [list_of_readDirectory hread, ofListing_of_sorted (Option.some.inj hfound) hsorted]

/-- A listed chunk file lies where its name says, and its name stands for its range. -/
theorem of_mem_list (h : list files directory window = .ok chunks) {chunk : ChunkEntry}
    (hc : chunk ∈ chunks) :
    chunk.path = directory.entry (chunk.name ++ ".bin") ∧
      BlockRange.parse? chunk.name = some chunk.range := by
  obtain ⟨entries, -, rfl⟩ := list_eq_ok h
  obtain ⟨hlies, -⟩ := mem_ofListing_iff.mp hc
  exact ⟨hlies.path, hlies.parsed⟩

theorem nodup_list (h : list files directory window = .ok chunks) :
    (chunks.map ChunkEntry.name).Nodup := by
  obtain ⟨entries, hread, rfl⟩ := list_eq_ok h
  exact nodup_ofListing (FileStore.nodup_readDirectory hread)

/-- The chunk files are listed from the newest range to the oldest. -/
theorem pairwise_noOlder (h : list files directory window = .ok chunks) :
    chunks.Pairwise fun a b => a.noOlder b = true := by
  obtain ⟨entries, -, rfl⟩ := list_eq_ok h
  exact pairwise_ofListing directory window entries

end ChunkEntry

end AppearanceIndex
