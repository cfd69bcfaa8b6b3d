import AppearanceIndex.Chunk.Builder
import AppearanceIndex.Proofs.Chunk.Spans
import Mathlib.Data.List.Induction

/-!
# Chunks that were built

A builder keeps its addresses ascending and gives each at least one appearance
(`ChunkBuilder.WellFormed`), and it holds exactly what was added to it. The bytes that it lays out
are admitted, their address table ascends, every span fits, and they decode to what the builder
holds.
-/

namespace AppearanceIndex

namespace ChunkBuilder

/-- Addresses ascend, and each has appearances. -/
structure WellFormed (b : ChunkBuilder) : Prop where
  ascending : b.entries.Pairwise (·.1 < ·.1)
  nonempty : ∀ entry ∈ b.entries, entry.2 ≠ []

/-- The appearances of all addresses, each with its address. -/
def decodedOf (entries : List (Address × List Appearance)) : List DecodedAppearance :=
  entries.flatMap fun entry => entry.2.map (DecodedAppearance.mk entry.1)

def decoded (b : ChunkBuilder) : List DecodedAppearance := decodedOf b.entries

/-! ## Adding -/

variable {address other : Address} {appearance : Appearance}
  {entries : List (Address × List Appearance)}

theorem mem_addTo {entry : Address × List Appearance}
    (h : entry ∈ addTo address appearance entries) :
    entry.2 ≠ [] ∧ entry.1 = address ∨ entry ∈ entries := by
  induction entries with
  | nil =>
    rw [addTo, List.mem_singleton] at h
    subst h
    exact .inl ⟨List.cons_ne_nil _ _, rfl⟩
  | cons first entries ih =>
    obtain ⟨a, apps⟩ := first
    rw [addTo] at h
    split at h
    · rcases List.mem_cons.mp h with rfl | h
      · exact .inl ⟨List.cons_ne_nil _ _, rfl⟩
      · exact .inr h
    · split at h
      · next heq =>
        rcases List.mem_cons.mp h with rfl | h
        · exact .inl ⟨by simp, heq.symm⟩
        · exact .inr (List.mem_cons_of_mem _ h)
      · rcases List.mem_cons.mp h with rfl | h
        · exact .inr List.mem_cons_self
        · exact (ih h).imp_right (List.mem_cons_of_mem _)

theorem ascending_addTo (h : entries.Pairwise (·.1 < ·.1)) :
    (addTo address appearance entries).Pairwise (·.1 < ·.1) := by
  induction entries with
  | nil => exact List.pairwise_singleton _ _
  | cons first entries ih =>
    obtain ⟨a, apps⟩ := first
    rw [List.pairwise_cons] at h
    rw [addTo]
    by_cases hlt : address < a
    · rw [if_pos hlt, List.pairwise_cons]
      refine ⟨fun entry hmem => ?_, List.pairwise_cons.mpr h⟩
      rcases List.mem_cons.mp hmem with rfl | hmem
      · exact hlt
      · exact Nat.lt_trans hlt (h.1 entry hmem)
    · rw [if_neg hlt]
      by_cases heq : address = a
      · rw [if_pos heq, List.pairwise_cons]
        exact h
      · rw [if_neg heq, List.pairwise_cons]
        refine ⟨fun entry hmem => ?_, ih h.2⟩
        rcases mem_addTo hmem with ⟨-, rfl⟩ | hmem
        · have hne : entry.1.toNat ≠ a.toNat := fun h => heq (Address.eq_of_toNat h)
          have hle : ¬ entry.1.toNat < a.toNat := hlt
          show a.toNat < entry.1.toNat
          omega
        · exact h.1 entry hmem

theorem decodedOf_addTo_perm (address : Address) (appearance : Appearance)
    (entries : List (Address × List Appearance)) :
    (decodedOf (addTo address appearance entries)).Perm
      (⟨address, appearance⟩ :: decodedOf entries) := by
  induction entries with
  | nil => exact .refl _
  | cons first entries ih =>
    obtain ⟨a, apps⟩ := first
    rw [addTo]
    split
    · exact .refl _
    · split
      · next heq =>
        subst heq
        unfold decodedOf
        rw [List.flatMap_cons, List.flatMap_cons, List.map_append, ← List.cons_append]
        exact List.Perm.append_right _ (List.perm_append_singleton _ _)
      · unfold decodedOf at ih ⊢
        rw [List.flatMap_cons, List.flatMap_cons]
        exact (List.Perm.append_left _ ih).trans List.perm_middle

def appearancesIn (entries : List (Address × List Appearance)) (address : Address) :
    List Appearance :=
  ((entries.find? (·.1 = address)).map Prod.snd).getD []

theorem appearancesIn_cons (first : Address × List Appearance)
    (entries : List (Address × List Appearance)) (address : Address) :
    appearancesIn (first :: entries) address =
      if first.1 = address then first.2 else appearancesIn entries address := by
  unfold appearancesIn
  rw [List.find?_cons]
  by_cases h : first.1 = address <;> simp [h]

theorem appearancesIn_eq_nil (h : ∀ entry ∈ entries, address < entry.1) :
    appearancesIn entries address = [] := by
  have hnone : entries.find? (·.1 = address) = none := by
    rw [List.find?_eq_none]
    intro entry hmem heq
    exact Address.ne_of_lt (h entry hmem) (of_decide_eq_true heq).symm
  unfold appearancesIn
  rw [hnone]
  rfl

theorem appearancesIn_addTo (h : entries.Pairwise (·.1 < ·.1)) :
    appearancesIn (addTo address appearance entries) other =
      appearancesIn entries other ++ if address = other then [appearance] else [] := by
  induction entries with
  | nil =>
    rw [addTo, appearancesIn_cons]
    rfl
  | cons first entries ih =>
    obtain ⟨a, apps⟩ := first
    rw [List.pairwise_cons] at h
    rw [addTo]
    by_cases hlt : address < a
    · rw [if_pos hlt, appearancesIn_cons]
      by_cases heq : address = other
      · have hnil : appearancesIn ((a, apps) :: entries) other = [] := by
          refine appearancesIn_eq_nil fun entry hmem => ?_
          rw [← heq]
          rcases List.mem_cons.mp hmem with rfl | hmem
          · exact hlt
          · exact Nat.lt_trans hlt (h.1 entry hmem)
        rw [if_pos heq, if_pos heq, hnil, List.nil_append]
      · rw [if_neg heq, if_neg heq, List.append_nil]
    · rw [if_neg hlt]
      by_cases hsame : address = a
      · subst hsame
        rw [if_pos rfl, appearancesIn_cons, appearancesIn_cons]
        split <;> simp
      · rw [if_neg hsame, appearancesIn_cons, appearancesIn_cons, ih h.2]
        by_cases ha : a = other
        · have hne : address ≠ other := fun heq => hsame (heq.trans ha.symm)
          rw [if_pos ha, if_pos ha, if_neg hne, List.append_nil]
        · rw [if_neg ha, if_neg ha]

theorem WellFormed.add {b : ChunkBuilder} (h : b.WellFormed) (d : DecodedAppearance) :
    (b.add d).WellFormed := by
  refine ⟨ascending_addTo h.ascending, fun entry hmem => ?_⟩
  rcases mem_addTo hmem with ⟨hne, -⟩ | hmem
  · exact hne
  · exact h.nonempty entry hmem

theorem ofList_append_single (ds : List DecodedAppearance) (d : DecodedAppearance) :
    ofList (ds ++ [d]) = (ofList ds).add d := by
  unfold ofList
  rw [List.foldl_append]
  rfl

theorem wellFormed_ofList (ds : List DecodedAppearance) : (ofList ds).WellFormed := by
  induction ds using List.reverseRecOn with
  | nil => exact ⟨.nil, by simp [ofList, empty]⟩
  | append_singleton ds d ih =>
    rw [ofList_append_single]
    exact ih.add d

/-- A builder holds what was added to it. -/
theorem decoded_ofList_perm (ds : List DecodedAppearance) : (ofList ds).decoded.Perm ds := by
  induction ds using List.reverseRecOn with
  | nil => exact .refl _
  | append_singleton ds d ih =>
    rw [ofList_append_single]
    refine (decodedOf_addTo_perm _ _ _).trans ?_
    exact (ih.cons d).trans (List.perm_append_singleton _ _).symm

/-- What a builder holds of an address is what was added of it, in that order. -/
theorem appearancesOf_ofList (ds : List DecodedAppearance) (address : Address) :
    (ofList ds).appearancesOf address =
      (ds.filter (·.address = address)).map (·.appearance) := by
  induction ds using List.reverseRecOn with
  | nil => rfl
  | append_singleton ds d ih =>
    rw [ofList_append_single, List.filter_append, List.map_append, ← ih]
    refine (appearancesIn_addTo (wellFormed_ofList ds).ascending).trans ?_
    refine congrArg _ ?_
    by_cases h : d.address = address <;> simp [h]

theorem length_decodedOf (entries : List (Address × List Appearance)) :
    (decodedOf entries).length = total (·.2.length) entries := by
  induction entries with
  | nil => rfl
  | cons entry entries ih =>
    unfold decodedOf at ih ⊢
    rw [List.flatMap_cons, List.length_append, List.length_map, ih, total_cons]

theorem appearanceCount_ofList (ds : List DecodedAppearance) :
    (ofList ds).appearanceCount = ds.length := by
  rw [← (decoded_ofList_perm ds).length_eq]
  exact (length_decodedOf _).symm

theorem WellFormed.addressCount_le {b : ChunkBuilder} (h : b.WellFormed) :
    b.addressCount ≤ b.appearanceCount := by
  unfold addressCount appearanceCount
  have hne := h.nonempty
  generalize b.entries = entries at hne
  induction entries with
  | nil => exact Nat.le_refl _
  | cons entry entries ih =>
    have hlength : 0 < entry.2.length := List.length_pos_iff.mpr (hne entry List.mem_cons_self)
    have hrest := ih fun other hmem => hne other (List.mem_cons_of_mem _ hmem)
    rw [List.length_cons, total_cons]
    omega

/-! ## The address table -/

theorem length_flatMap_snd (entries : List (Address × List Appearance)) :
    (entries.flatMap Prod.snd).length = total (·.2.length) entries := by
  induction entries with
  | nil => rfl
  | cons entry entries ih => rw [List.flatMap_cons, List.length_append, ih, total_cons]

theorem length_recordsFrom (offset : Nat) (entries : List (Address × List Appearance)) :
    (recordsFrom offset entries).length = entries.length := by
  induction entries generalizing offset with
  | nil => rfl
  | cons entry entries ih => rw [recordsFrom, List.length_cons, ih, List.length_cons]

theorem map_address_recordsFrom (offset : Nat) (entries : List (Address × List Appearance)) :
    (recordsFrom offset entries).map (·.address) = entries.map Prod.fst := by
  induction entries generalizing offset with
  | nil => rfl
  | cons entry entries ih => rw [recordsFrom, List.map_cons, ih, List.map_cons]

theorem total_count_recordsFrom {offset : Nat} (h : total (·.2.length) entries < UInt32.size) :
    total (·.count.toNat) (recordsFrom offset entries) = total (·.2.length) entries := by
  induction entries generalizing offset with
  | nil => rfl
  | cons entry entries ih =>
    rw [total_cons] at h
    have hcount : (UInt32.ofNat entry.2.length).toNat = entry.2.length :=
      UInt32.toNat_ofNat_of_lt' (by omega)
    rw [recordsFrom, total_cons, hcount, ih (by omega), total_cons]

theorem follow_recordsFrom {offset : Nat}
    (h : offset + total (·.2.length) entries < UInt32.size) :
    Chunk.Follow offset (recordsFrom offset entries) := by
  induction entries generalizing offset with
  | nil =>
    intro i record hi
    cases hi
  | cons entry entries ih =>
    rw [total_cons] at h
    have hcount : (UInt32.ofNat entry.2.length).toNat = entry.2.length :=
      UInt32.toNat_ofNat_of_lt' (by omega)
    rw [recordsFrom, Chunk.follow_cons, hcount]
    exact ⟨UInt32.toNat_ofNat_of_lt' (by omega), ih (by omega)⟩

/-- Each record stands for the appearances of its entry. -/
theorem flatMap_recordsFrom {table front : List Appearance} {offset : Nat}
    (ht : table = front ++ entries.flatMap Prod.snd) (ho : front.length = offset)
    (hsize : table.length < UInt32.size) :
    ((recordsFrom offset entries).flatMap fun record =>
      ((table.drop record.offset.toNat).take record.count.toNat).map
        (DecodedAppearance.mk record.address)) = decodedOf entries := by
  induction entries generalizing front offset with
  | nil => rfl
  | cons entry entries ih =>
    have hlength : table.length =
        offset + (entry.2.length + (entries.flatMap Prod.snd).length) := by
      rw [ht, List.length_append, List.flatMap_cons, List.length_append, ho]
    have hoffset : (UInt32.ofNat offset).toNat = offset := UInt32.toNat_ofNat_of_lt' (by omega)
    have hcount : (UInt32.ofNat entry.2.length).toNat = entry.2.length :=
      UInt32.toNat_ofNat_of_lt' (by omega)
    have hspan : (table.drop offset).take entry.2.length = entry.2 := by
      rw [ht, List.drop_left' ho, List.flatMap_cons, List.take_left' rfl]
    have htail : table = (front ++ entry.2) ++ entries.flatMap Prod.snd := by
      rw [ht, List.flatMap_cons, List.append_assoc]
    have hfront : (front ++ entry.2).length = offset + entry.2.length := by
      rw [List.length_append, ho]
    have hrest := ih htail hfront
    rw [recordsFrom, List.flatMap_cons, hrest]
    simp only [hoffset, hcount, hspan]
    unfold decodedOf
    rw [List.flatMap_cons]

/-! ## The bytes -/

section Build

variable {b : ChunkBuilder}

theorem header_build (b : ChunkBuilder) : Chunk.header b.build = b.header := by
  unfold Chunk.header build
  rw [List.append_assoc, ChunkHeader.ofBytes_toBytes_append]

theorem length_records (records : List AddressRecord) :
    (records.flatMap AddressRecord.toBytes).length =
      records.length * ChunkHeader.addressRecordWidth :=
  Bytes.length_flatMap_encode AddressRecord.length_toBytes records

theorem length_appearances (apps : List Appearance) :
    (apps.flatMap Appearance.toBytes).length = apps.length * ChunkHeader.appearanceWidth :=
  Bytes.length_flatMap_encode Appearance.length_toBytes apps

variable (h : b.WellFormed) (hc : b.appearanceCount < UInt32.size)
include h hc

theorem toNat_addressCount : b.header.addressCount.toNat = b.records.length := by
  have hle := h.addressCount_le
  unfold records
  rw [length_recordsFrom]
  exact UInt32.toNat_ofNat_of_lt' (by omega)

omit h in
theorem toNat_appearanceCount :
    b.header.appearanceCount.toNat = (b.entries.flatMap Prod.snd).length := by
  rw [length_flatMap_snd]
  exact UInt32.toNat_ofNat_of_lt' hc

theorem addressTable_build : Chunk.addressTable b.build = b.records := by
  unfold Chunk.addressTable
  rw [header_build, toNat_addressCount h hc]
  have hstart : b.header.toBytes.length = b.header.addressTableStart := b.header.length_toBytes
  unfold build
  rw [List.append_assoc, List.drop_left' hstart, List.take_left' (length_records _),
    ← List.append_nil (List.flatMap _ _), AddressRecord.decodeAll_flatMap _ (by decide)]

theorem appearanceTable_build : Chunk.appearanceTable b.build = b.entries.flatMap Prod.snd := by
  have hfront : (b.header.toBytes ++ b.records.flatMap AddressRecord.toBytes).length =
      b.header.appearanceTableStart := by
    rw [List.length_append, length_records, ChunkHeader.length_toBytes]
    unfold ChunkHeader.appearanceTableStart
    rw [toNat_addressCount h hc]
    rfl
  unfold Chunk.appearanceTable
  rw [header_build, toNat_appearanceCount hc]
  unfold build
  rw [List.drop_left' hfront, List.take_of_length_le (Nat.le_of_eq (length_appearances _)),
    ← List.append_nil (List.flatMap Appearance.toBytes _),
    Appearance.decodeAll_flatMap _ (by decide)]

theorem length_build : b.build.length = b.header.fileSize := by
  unfold build ChunkHeader.fileSize ChunkHeader.appearanceTableStart
  rw [List.length_append, List.length_append, length_records, length_appearances,
    ChunkHeader.length_toBytes, toNat_addressCount h hc, toNat_appearanceCount hc]
  rfl

theorem admitted_build : Chunk.Admitted b.build := by
  refine ⟨?_, ?_, ?_⟩
  · unfold build
    rw [List.length_append, List.length_append, ChunkHeader.length_toBytes]
    omega
  · rw [header_build]
    rfl
  · refine Nat.le_of_eq ?_
    rw [header_build, length_build h hc]

theorem ascending_addressTable : (Chunk.addressTable b.build).Pairwise (·.address < ·.address) := by
  rw [addressTable_build h hc]
  have hpairs := List.pairwise_map.mpr h.ascending
  rw [← map_address_recordsFrom 0] at hpairs
  exact List.pairwise_map.mp hpairs

omit h in
theorem tiling_records : Chunk.Tiling b.records b.appearanceCount where
  follow := by
    have hsize : 0 + total (·.2.length) b.entries < UInt32.size := by
      rw [Nat.zero_add]
      exact hc
    exact follow_recordsFrom hsize
  total_eq := total_count_recordsFrom hc

theorem fits_addressTable :
    ∀ record ∈ Chunk.addressTable b.build, record.Fits (Chunk.header b.build) := by
  intro record hmem
  rw [addressTable_build h hc] at hmem
  unfold AddressRecord.Fits
  rw [header_build, toNat_appearanceCount hc, length_flatMap_snd]
  exact (tiling_records hc).spanEnd_le hmem

/-- A chunk that was built decodes to what its builder holds. -/
theorem decoded_build : Chunk.decoded b.build = b.decoded := by
  have hsize : (b.entries.flatMap Prod.snd).length < UInt32.size := by
    rw [length_flatMap_snd]
    exact hc
  unfold Chunk.decoded Chunk.decodedSpan Chunk.spanOf
  have htable : b.entries.flatMap Prod.snd = [] ++ b.entries.flatMap Prod.snd := rfl
  rw [addressTable_build h hc, appearanceTable_build h hc]
  exact flatMap_recordsFrom htable rfl hsize

end Build

end ChunkBuilder

end AppearanceIndex
