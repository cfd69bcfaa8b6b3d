import AppearanceIndex.Proofs.Index.Listing
import AppearanceIndex.Proofs.Text.RangeName

/-!
# Which chunk files a window selects

A chunk file is listed exactly if the window admits its range, once, and in an order that the order
of the directory does not influence: only files whose names stand for the same range can change
places (`ChunkEntry.ofListing_exact`).

A window has two ends that are looked at one after the other. If they are in order, it admits the
ranges that share a block with it. If they are not, no block lies inside the window, and yet it
admits the ranges that reach over both ends (`ChunkEntry.ofListing_overlap`).
-/

namespace AppearanceIndex

/-! ## Windows -/

namespace BlockRange

theorem contains_iff {r : BlockRange} {block : UInt64} :
    r.contains block = true ↔ r.first ≤ block ∧ block ≤ r.last := by
  unfold contains
  rw [Bool.and_eq_true, decide_eq_true_iff, decide_eq_true_iff]

theorem intersects_iff {r s : BlockRange} :
    r.intersects s = true ↔ r.first ≤ s.last ∧ s.first ≤ r.last := by
  unfold intersects
  rw [Bool.and_eq_true, decide_eq_true_iff, decide_eq_true_iff]

/-- Ranges with their ends in order intersect exactly if they share a block. -/
theorem intersects_iff_exists {r s : BlockRange} (hr : r.first ≤ r.last) (hs : s.first ≤ s.last) :
    r.intersects s = true ↔ ∃ block, r.contains block = true ∧ s.contains block = true := by
  rw [intersects_iff]
  constructor
  · rintro ⟨hfirst, hlast⟩
    -- the later of the first blocks
    rcases UInt64.le_total r.first s.first with hle | hle
    · exact ⟨s.first, contains_iff.mpr ⟨hle, hlast⟩, contains_iff.mpr ⟨UInt64.le_refl _, hs⟩⟩
    · exact ⟨r.first, contains_iff.mpr ⟨UInt64.le_refl _, hr⟩, contains_iff.mpr ⟨hle, hfirst⟩⟩
  · rintro ⟨block, hblock, hblock'⟩
    rw [contains_iff] at hblock hblock'
    exact ⟨UInt64.le_trans hblock.1 hblock'.2, UInt64.le_trans hblock'.1 hblock.2⟩

end BlockRange

namespace BlockWindow

theorem admits_iff {w : BlockWindow} {range : BlockRange} : w.admits range = true ↔
    (∀ block ∈ w.first, ¬ range.last < block) ∧ ∀ block ∈ w.last, ¬ block < range.first := by
  unfold admits BlockRange.earlierThan BlockRange.laterThan
  rw [Bool.and_eq_true, Bool.not_eq_true', Bool.not_eq_true']
  obtain ⟨first, last⟩ := w
  cases first <;> cases last <;> simp

/-- Two bounds are looked at as if they were the ends of a range, in order or not. -/
theorem admits_bounds {first last : UInt64} {range : BlockRange} :
    (BlockWindow.mk (some first) (some last)).admits range = true ↔
      range.intersects ⟨first, last⟩ = true := by
  rw [admits_iff, BlockRange.intersects_iff]
  simp only [Option.mem_some, forall_eq', UInt64.not_lt]
  exact and_comm

end BlockWindow

namespace ChunkEntry

variable {directory : Path} {window : BlockWindow} {entries other : List (String × FileNode)}

/-! ## The order of the listing -/

/-- The same files are listed in whatever order they are found. -/
theorem perm_ofListing (h : other.Perm entries) :
    (ofListing directory window other).Perm (ofListing directory window entries) :=
  (List.mergeSort_perm _ _).trans ((h.filterMap _).trans (List.mergeSort_perm _ _).symm)

/-- Their ranges come in the same order, since different ranges are never tied. -/
theorem map_range_ofListing (h : other.Perm entries) :
    (ofListing directory window other).map range =
      (ofListing directory window entries).map range := by
  have hsorted : ∀ entries, ((ofListing directory window entries).map range).Pairwise
      fun r s => (s.cmp r).isLE = true := fun entries =>
    List.pairwise_map.mpr (pairwise_ofListing directory window entries)
  exact ((perm_ofListing h).map range).eq_of_pairwise
    (fun _ _ _ _ hrs hsr => BlockRange.eq_of_isLE hsr hrs) (hsorted other) (hsorted entries)

theorem ofListing_eq_of_perm (h : other.Perm entries)
    (hties : ∀ a ∈ ofListing directory window entries, ∀ b ∈ ofListing directory window entries,
      a.range = b.range → a = b) :
    ofListing directory window other = ofListing directory window entries := by
  have hperm : (ofListing directory window other).Perm (ofListing directory window entries) :=
    perm_ofListing h
  refine hperm.eq_of_pairwise ?_ (pairwise_ofListing ..) (pairwise_ofListing ..)
  intro a b ha hb hab hba
  exact hties a (hperm.subset ha) b hb (BlockRange.eq_of_isLE hba hab)

/-- Listed files of one name are one file. -/
theorem eq_of_name {a b : ChunkEntry} (ha : a.LiesIn directory entries)
    (hb : b.LiesIn directory entries) (h : a.name = b.name) : a = b := by
  obtain ⟨path, name, range⟩ := a
  obtain ⟨path', name', range'⟩ := b
  cases h
  have hrange := ha.parsed.symm.trans hb.parsed
  rw [mk.injEq]
  exact ⟨ha.path.trans hb.path.symm, rfl, Option.some.inj hrange⟩

/-- A listing holds exactly the chunk files of a directory that neither bound leaves out, each once,
from the newest range to the oldest. Their ranges do not depend on the order in which the directory
gives its entries, and neither does anything else if no two of the names stand for one range. -/
theorem ofListing_exact (directory : Path) (window : BlockWindow)
    {entries : List (String × FileNode)} (hnames : entries.Pairwise (·.1 ≠ ·.1)) :
    (∀ chunk, chunk ∈ ofListing directory window entries ↔ chunk.LiesIn directory entries ∧
      (∀ block ∈ window.first, ¬ chunk.range.last < block) ∧
      ∀ block ∈ window.last, ¬ block < chunk.range.first) ∧
    ((ofListing directory window entries).map name).Nodup ∧
    ((ofListing directory window entries).Pairwise fun a b => b.range.first < a.range.first ∨
      (b.range.first = a.range.first ∧ b.range.last ≤ a.range.last)) ∧
    (∀ other : List (String × FileNode), other.Perm entries →
      (ofListing directory window other).map range =
        (ofListing directory window entries).map range ∧
      ((∀ a ∈ ofListing directory window entries, ∀ b ∈ ofListing directory window entries,
          a.range = b.range → a.name = b.name) →
        ofListing directory window other = ofListing directory window entries)) ∧
    ∀ files : FileStore, files.readDirectory directory = .ok entries →
      list files directory window = .ok (ofListing directory window entries) := by
  refine ⟨fun chunk => ?_, nodup_ofListing hnames, ?_, fun other hperm => ?_,
    fun files hread => list_of_readDirectory hread window⟩
  · rw [mem_ofListing_iff, BlockWindow.admits_iff]
  · refine (pairwise_ofListing directory window entries).imp fun {a b} hab => ?_
    rwa [noOlder_iff, ← UInt64.lt_iff_toNat_lt, UInt64.toNat_inj, ← UInt64.le_iff_toNat_le] at hab
  · refine ⟨map_range_ofListing hperm, fun hties => ofListing_eq_of_perm hperm ?_⟩
    intro a ha b hb hrange
    have hname := hties a ha b hb hrange
    exact eq_of_name (mem_ofListing_iff.mp ha).1 (mem_ofListing_iff.mp hb).1 hname

/-- A directory with two names of one range, and with what is no chunk file. -/
def twinEntries : List (String × FileNode) :=
  [("3-9.bin", .file []), ("1-2.bin", .file []), ("01-2.bin", .file []), ("5-6.bin", .directory),
    ("5-6.txt", .file []), ("garbage.bin", .file [])]

theorem ofListing_exact_twins :
    twinEntries.Pairwise (·.1 ≠ ·.1) ∧
      ofListing ⟨"d"⟩ ⟨some 2, some 8⟩ twinEntries = [⟨⟨"d/3-9.bin"⟩, "3-9", ⟨3, 9⟩⟩,
        ⟨⟨"d/1-2.bin"⟩, "1-2", ⟨1, 2⟩⟩, ⟨⟨"d/01-2.bin"⟩, "01-2", ⟨1, 2⟩⟩] ∧
      ∀ other : List (String × FileNode), other.Perm twinEntries →
        (ofListing ⟨"d"⟩ ⟨some 2, some 8⟩ other).map range = [⟨3, 9⟩, ⟨1, 2⟩, ⟨1, 2⟩] := by
  have hnames : twinEntries.Pairwise (·.1 ≠ ·.1) := by
    unfold twinEntries
    decide +kernel
  have hlisting : ofListing ⟨"d"⟩ ⟨some 2, some 8⟩ twinEntries = [⟨⟨"d/3-9.bin"⟩, "3-9", ⟨3, 9⟩⟩,
      ⟨⟨"d/1-2.bin"⟩, "1-2", ⟨1, 2⟩⟩, ⟨⟨"d/01-2.bin"⟩, "01-2", ⟨1, 2⟩⟩] :=
    ofListing_of_sorted (by decide +kernel) (by decide)
  obtain ⟨-, -, -, hranges, -⟩ := ofListing_exact ⟨"d"⟩ ⟨some 2, some 8⟩ hnames
  refine ⟨hnames, hlisting, fun other hperm => ?_⟩
  rw [(hranges other hperm).1, hlisting]
  rfl

/-! ## The blocks of the window -/

/-- A chunk file with a block inside the window is listed, and if the bounds are in order, nothing
else is. Of bounds that are not in order the blocks between them count instead: listed are the chunk
files that contain both bounds, hence none if there is no such file. -/
theorem ofListing_overlap (directory : Path) (entries : List (String × FileNode))
    (first last : UInt64) :
    (∀ chunk : ChunkEntry, chunk.LiesIn directory entries →
      (∃ block, chunk.range.contains block = true ∧ first ≤ block ∧ block ≤ last) →
        chunk ∈ ofListing directory ⟨some first, some last⟩ entries) ∧
    (first ≤ last → ∀ chunk ∈ ofListing directory ⟨some first, some last⟩ entries,
      ∃ block, chunk.range.contains block = true ∧ first ≤ block ∧ block ≤ last) ∧
    (last < first → ∀ chunk, chunk ∈ ofListing directory ⟨some first, some last⟩ entries ↔
      chunk.LiesIn directory entries ∧ chunk.range.contains last = true ∧
        chunk.range.contains first = true) ∧
    ∀ files : FileStore, files.readDirectory directory = .ok entries →
      list files directory ⟨some first, some last⟩ =
        .ok (ofListing directory ⟨some first, some last⟩ entries) := by
  refine ⟨?_, ?_, ?_, fun files hread => list_of_readDirectory hread _⟩
  · rintro chunk hlies ⟨block, hblock, hfirst, hlast⟩
    rw [BlockRange.contains_iff] at hblock
    refine mem_ofListing_iff.mpr ⟨hlies, ?_⟩
    rw [BlockWindow.admits_bounds, BlockRange.intersects_iff]
    exact ⟨UInt64.le_trans hblock.1 hlast, UInt64.le_trans hfirst hblock.2⟩
  · intro hordered chunk hmem
    -- a name never stands for a range that ends before it begins
    obtain ⟨hlies, hadmits⟩ := mem_ofListing_iff.mp hmem
    rw [BlockWindow.admits_bounds, BlockRange.intersects_iff_exists
      (BlockRange.first_le_last_of_parse? hlies.parsed) hordered] at hadmits
    obtain ⟨block, hblock, hwindow⟩ := hadmits
    exact ⟨block, hblock, BlockRange.contains_iff.mp hwindow⟩
  · intro hinverted chunk
    rw [mem_ofListing_iff, BlockWindow.admits_bounds, BlockRange.intersects_iff,
      BlockRange.contains_iff, BlockRange.contains_iff]
    have hle := UInt64.le_of_lt hinverted
    refine and_congr_right fun _ => ⟨?_, fun h => ⟨h.1.1, h.2.2⟩⟩
    -- neither test compares the bounds with each other, so the range must reach over both
    rintro ⟨hfirst, hlast⟩
    exact ⟨⟨hfirst, UInt64.le_trans hle hlast⟩, UInt64.le_trans hfirst hle, hlast⟩

/-- A store with a directory of one chunk file. -/
def loneChunk : FileStore where
  workingPlace := []
  nodes := [(["index"], .directory), (["index", "0-99.bin"], .file [])]

/-- No block lies inside an inverted window, and yet it lists a range that reaches over both of its
ends. -/
theorem list_inverted_window :
    list loneChunk ⟨"/index"⟩ ⟨some 60, some 50⟩ =
        .ok [⟨⟨"/index/0-99.bin"⟩, "0-99", ⟨0, 99⟩⟩] ∧
      ¬ ∃ block : UInt64, (BlockRange.mk 0 99).contains block = true ∧ 60 ≤ block ∧ block ≤ 50 := by
  refine ⟨list_of_sorted (by decide +kernel) (by decide), ?_⟩
  rintro ⟨block, -, hfirst, hlast⟩
  exact absurd (UInt64.le_trans hfirst hlast) (by decide)

end ChunkEntry

end AppearanceIndex
