import AppearanceIndex.Proofs.Chunk.Lookup
import AppearanceIndex.Proofs.Chunk.Recode
import AppearanceIndex.Proofs.Chunk.Written
import Mathlib.Data.List.Sort

/-!
# Canonical chunks

A chunk is canonical when its digest is zero, its file ends with its tables, its addresses ascend,
and its spans are not empty and tile the appearance table (`Chunk.Canonical`). These are the files
that builders lay out: what a builder lays out is canonical (`ChunkBuilder.canonical_build`), and a
canonical file is laid out by the builder that holds what the file holds
(`Chunk.Canonical.build_builder`). A builder is determined by the appearances of each address
(`ChunkBuilder.WellFormed.ext`).
-/

namespace AppearanceIndex

/-! ## What determines a builder -/

namespace ChunkBuilder

variable {entries : List (Address × List Appearance)}

theorem appearancesIn_of_mem (h : entries.Pairwise (·.1 < ·.1))
    {entry : Address × List Appearance} (hmem : entry ∈ entries) :
    appearancesIn entries entry.1 = entry.2 := by
  induction entries with
  | nil => cases hmem
  | cons first entries ih =>
    rw [List.pairwise_cons] at h
    rw [appearancesIn_cons]
    rcases List.mem_cons.mp hmem with rfl | hmem
    · exact if_pos rfl
    · rw [if_neg (Address.ne_of_lt (h.1 entry hmem)), ih h.2 hmem]

theorem mem_of_appearancesIn {address : Address} (h : appearancesIn entries address ≠ []) :
    (address, appearancesIn entries address) ∈ entries := by
  unfold appearancesIn at h ⊢
  cases hfind : entries.find? (·.1 = address) with
  | none =>
    rw [hfind] at h
    exact absurd rfl h
  | some entry =>
    have haddress : entry.1 = address := by simpa using List.find?_some hfind
    rw [← haddress]
    exact List.mem_of_find?_eq_some hfind

/-- The entries are the addresses that have appearances, each with these. -/
theorem WellFormed.mem_entries_iff {b : ChunkBuilder} (h : b.WellFormed)
    {entry : Address × List Appearance} :
    entry ∈ b.entries ↔ entry.2 ≠ [] ∧ b.appearancesOf entry.1 = entry.2 := by
  constructor
  · intro hmem
    exact ⟨h.nonempty entry hmem, appearancesIn_of_mem h.ascending hmem⟩
  · rintro ⟨hne, heq⟩
    have hmem := mem_of_appearancesIn (heq.symm ▸ hne)
    rwa [show appearancesIn b.entries entry.1 = entry.2 from heq] at hmem

/-- Builders that hold the same appearances of every address are the same. -/
theorem WellFormed.ext {b c : ChunkBuilder} (hb : b.WellFormed) (hc : c.WellFormed)
    (h : ∀ address, b.appearancesOf address = c.appearancesOf address) : b = c := by
  have hirrefl : Std.Irrefl fun e f : Address × List Appearance => e.1 < f.1 :=
    ⟨fun e hlt => Address.ne_of_lt hlt rfl⟩
  have hantisymm : Std.Antisymm fun e f : Address × List Appearance => e.1 < f.1 :=
    ⟨fun _ _ hef hfe => absurd rfl (Address.ne_of_lt (Nat.lt_trans hef hfe))⟩
  have hentries : b.entries = c.entries := by
    apply hb.ascending.eq_of_mem_iff hc.ascending
    intro entry
    rw [hb.mem_entries_iff, hc.mem_entries_iff, h]
  exact congrArg ChunkBuilder.mk hentries

/-- What entries hold of an address, picked out of all that they hold. -/
theorem filter_decodedOf (h : entries.Pairwise (·.1 < ·.1)) (address : Address) :
    ((decodedOf entries).filter (·.address = address)).map (·.appearance) =
      appearancesIn entries address :=
  filter_spans h address

theorem recordsFrom_map {records : List AddressRecord} {span : AddressRecord → List Appearance}
    {start : Nat} (hf : Chunk.Follow start records)
    (hl : ∀ record ∈ records, (span record).length = record.count.toNat) :
    recordsFrom start (records.map fun record => (record.address, span record)) = records := by
  induction records generalizing start with
  | nil => rfl
  | cons record records ih =>
    obtain ⟨hfirst, hrest⟩ := Chunk.follow_cons.mp hf
    have hlength := hl record List.mem_cons_self
    have htail := ih hrest fun other hmem => hl other (List.mem_cons_of_mem _ hmem)
    rw [List.map_cons, recordsFrom, hlength, htail, ← hfirst, UInt32.ofNat_toNat,
      UInt32.ofNat_toNat]

end ChunkBuilder

/-! ## Canonical files -/

namespace Chunk

variable {bs : Bytes}

/-- The form in which builders lay chunks out. -/
@[mk_iff]
structure Canonical (bs : Bytes) : Prop where
  hash_eq : (header bs).hash = Vector.replicate 32 0
  length_eq : bs.length = (header bs).fileSize
  ascending : (addressTable bs).Pairwise (·.address < ·.address)
  nonempty : ∀ record ∈ addressTable bs, 1 ≤ record.count.toNat
  tiling : Tiling (addressTable bs) (header bs).appearanceCount.toNat

instance (bs : Bytes) : Decidable (Canonical bs) := decidable_of_iff' _ (canonical_iff bs)

/-- A file that ends with its tables is its header and its tables. -/
theorem Admitted.eq_toBytes (ha : Admitted bs) (hl : bs.length = (header bs).fileSize) :
    (header bs).toBytes ++ (addressTable bs).flatMap AddressRecord.toBytes ++
      (appearanceTable bs).flatMap Appearance.toBytes = bs := by
  have hrecords : (addressTable bs).flatMap AddressRecord.toBytes =
      (bs.drop (header bs).addressTableStart).take
        ((header bs).addressCount.toNat * ChunkHeader.addressRecordWidth) := by
    have hlength := ha.length_addressTable
    unfold addressTable at hlength ⊢
    rw [AddressRecord.length_decodeAll] at hlength
    rw [AddressRecord.flatMap_decodeAll, hlength]
    exact List.take_of_length_le (List.length_take_le _ _)
  have happs : (appearanceTable bs).flatMap Appearance.toBytes =
      bs.drop (header bs).appearanceTableStart := by
    have hlength := ha.length_appearanceTable
    have hrest : (bs.drop (header bs).appearanceTableStart).length =
        (header bs).appearanceCount.toNat * ChunkHeader.appearanceWidth := by
      rw [List.length_drop, hl]
      exact Nat.add_sub_cancel_left _ _
    unfold appearanceTable at hlength ⊢
    rw [Appearance.length_decodeAll] at hlength
    rw [Appearance.flatMap_decodeAll, hlength, List.take_take, Nat.min_self, ← hrest,
      List.take_length]
  have hheader : (header bs).toBytes = bs.take (header bs).addressTableStart :=
    ChunkHeader.toBytes_ofBytes ha.1
  rw [hheader, hrecords, happs, ← List.take_add]
  exact List.take_append_drop _ bs

/-- The builder that holds what a chunk holds. -/
def builder (bs : Bytes) : ChunkBuilder :=
  ⟨(addressTable bs).map fun record => (record.address, spanOf bs record)⟩

theorem decoded_builder (bs : Bytes) : (builder bs).decoded = decoded bs := by
  unfold ChunkBuilder.decoded ChunkBuilder.decodedOf builder decoded
  rw [List.flatMap_map]
  rfl

namespace Canonical

variable (h : Canonical bs) (ha : Admitted bs)
include h ha

theorem length_spanOf {record : AddressRecord} (hmem : record ∈ addressTable bs) :
    (spanOf bs record).length = record.count.toNat :=
  h.tiling.length_spanOf ha hmem

theorem wellFormed_builder : (builder bs).WellFormed where
  ascending := List.pairwise_map.mpr h.ascending
  nonempty entry hmem := by
    obtain ⟨record, hrecord, rfl⟩ := List.mem_map.mp hmem
    have hcount := h.nonempty record hrecord
    rw [← h.length_spanOf ha hrecord] at hcount
    exact List.length_pos_iff.mp hcount

theorem records_builder : (builder bs).records = addressTable bs :=
  ChunkBuilder.recordsFrom_map h.tiling.follow fun _ hmem => h.length_spanOf ha hmem

theorem appearances_builder : (builder bs).entries.flatMap Prod.snd = appearanceTable bs := by
  unfold builder
  rw [List.flatMap_map]
  exact h.tiling.flatMap_spanOf ha

theorem header_builder : (builder bs).header = header bs := by
  have haddresses : (builder bs).addressCount = (header bs).addressCount.toNat := by
    rw [← ha.length_addressTable]
    exact List.length_map _
  have happs : (builder bs).appearanceCount = (header bs).appearanceCount.toNat := by
    rw [← ha.length_appearanceTable, ← h.appearances_builder ha,
      ChunkBuilder.length_flatMap_snd]
    rfl
  unfold ChunkBuilder.header
  rw [haddresses, happs, UInt32.ofNat_toNat, UInt32.ofNat_toNat, ← h.hash_eq, ← ha.2.1]

/-- A canonical file is laid out again by the builder that holds what it holds. -/
theorem build_builder : (builder bs).build = bs := by
  unfold ChunkBuilder.build
  rw [h.header_builder ha, h.records_builder ha, h.appearances_builder ha]
  exact ha.eq_toBytes h.length_eq

end Canonical

end Chunk

namespace ChunkBuilder

theorem one_le_count_recordsFrom {entries : List (Address × List Appearance)} {offset : Nat}
    (hne : ∀ entry ∈ entries, entry.2 ≠ []) (hc : total (·.2.length) entries < UInt32.size) :
    ∀ record ∈ recordsFrom offset entries, 1 ≤ record.count.toNat := by
  induction entries generalizing offset with
  | nil =>
    intro record hmem
    cases hmem
  | cons entry entries ih =>
    rw [total_cons] at hc
    intro record hmem
    rcases List.mem_cons.mp hmem with rfl | hmem
    · have hlength : 0 < entry.2.length := List.length_pos_iff.mpr (hne entry List.mem_cons_self)
      have hcount : (UInt32.ofNat entry.2.length).toNat = entry.2.length :=
        UInt32.toNat_ofNat_of_lt' (by omega)
      rw [hcount]
      exact hlength
    · exact ih (fun other hother => hne other (List.mem_cons_of_mem _ hother)) (by omega) record
        hmem

/-- What a builder lays out is canonical. -/
theorem canonical_build {b : ChunkBuilder} (h : b.WellFormed)
    (hc : b.appearanceCount < UInt32.size) : Chunk.Canonical b.build where
  hash_eq := by
    rw [header_build]
    rfl
  length_eq := by rw [header_build, length_build h hc]
  ascending := ascending_addressTable h hc
  nonempty := by
    rw [addressTable_build h hc]
    exact one_le_count_recordsFrom h.nonempty hc
  tiling := by
    rw [addressTable_build h hc, header_build, toNat_appearanceCount hc, length_flatMap_snd]
    exact tiling_records hc

end ChunkBuilder

end AppearanceIndex
