import Mathlib.Data.List.Flatten
import Mathlib.Data.List.Perm.Subperm
import AppearanceIndex.Proofs.Chunk.Tables
import AppearanceIndex.Proofs.Decode.Count
import AppearanceIndex.Proofs.Decode.Shards

/-!
# What a whole decode gives

The shards of a chunk in memory decode to the records of their slices of the table. When none of
them fails, every span fits, and the sequences of all shards, one after another, are the chunk as
`Chunk.decoded` reads it off its bytes; an interleaving of them is a permutation of that. Whether a
shard fails or not, it gives appearances of records whose spans fit (`Chunk.fitting`), and each of
them once.
-/

namespace AppearanceIndex

/-- The appearances of the records whose spans fit. -/
def Chunk.fitting (bs : Bytes) : List DecodedAppearance :=
  ((addressTable bs).filter (·.Fits (header bs))).flatMap (decodedSpan bs)

namespace OpenChunk

variable {bs : Bytes} {range : BlockRange}

theorem fits_of_decodeRecords {shard : Shard} {records : List AddressRecord}
    (h : ((ofBytes bs range).decodeRecords shard records).2 = none) :
    ∀ record ∈ records, record.Fits (Chunk.header bs) := by
  induction records with
  | nil =>
    intro record hmem
    cases hmem
  | cons record records ih =>
    unfold decodeRecords at h
    cases hspan : (ofBytes bs range).readSpan shard record with
    | error f =>
      simp only [hspan] at h
      cases h
    | ok apps =>
      simp only [hspan] at h
      have hfits : record.Fits (Chunk.header bs) := by
        refine Classical.byContradiction fun hn => ?_
        unfold readSpan at hspan
        rw [if_neg (show ¬ record.Fits (ofBytes bs range).header from hn)] at hspan
        cases hspan
      intro other hmem
      rcases List.mem_cons.mp hmem with rfl | hmem
      · exact hfits
      · exact ih h other hmem

theorem decodeRecords_ofBytes (h : Chunk.Admitted bs) (shard : Shard)
    {records : List AddressRecord} (hf : ∀ record ∈ records, record.Fits (Chunk.header bs)) :
    (ofBytes bs range).decodeRecords shard records =
      (records.flatMap (Chunk.decodedSpan bs), none) := by
  induction records with
  | nil => rfl
  | cons record records ih =>
    have hrest := ih fun other hmem => hf other (List.mem_cons_of_mem record hmem)
    unfold decodeRecords
    rw [readSpan_ofBytes h shard (hf record List.mem_cons_self), hrest]
    rfl

def recordsOf (bs : Bytes) (shard : Shard) : List AddressRecord :=
  ((Chunk.addressTable bs).drop shard.start).take shard.length

theorem decodeShard_ofBytes (h : Chunk.Admitted bs) {shard : Shard}
    (hs : shard.stop ≤ (Chunk.header bs).addressCount.toNat) :
    (ofBytes bs range).decodeShard shard =
      (ofBytes bs range).decodeRecords shard (recordsOf bs shard) := by
  unfold decodeShard
  rw [readRecords_ofBytes h hs]
  rfl

theorem flatMap_recordsOf (h : Chunk.Admitted bs) (maxWorkers : Positive) :
    ((ofBytes bs range).shards maxWorkers).flatMap (recordsOf bs) = Chunk.addressTable bs := by
  have hwhole := flatMap_planShards (Chunk.addressTable bs) maxWorkers.property
  rw [h.length_addressTable] at hwhole
  exact hwhole

/-- If no shard fails, every span fits. -/
theorem fits_of_shards (h : Chunk.Admitted bs) {maxWorkers : Positive}
    (hall : ∀ shard ∈ (ofBytes bs range).shards maxWorkers,
      ((ofBytes bs range).decodeShard shard).2 = none) :
    ∀ record ∈ Chunk.addressTable bs, record.Fits (Chunk.header bs) := by
  intro record hmem
  have hwhole : ((ofBytes bs range).shards maxWorkers).flatMap (recordsOf bs) =
      Chunk.addressTable bs := flatMap_recordsOf h maxWorkers
  rw [← hwhole] at hmem
  obtain ⟨shard, hshard, hrecord⟩ := List.mem_flatMap.mp hmem
  have hnone := hall shard hshard
  rw [decodeShard_ofBytes h (stop_le_of_mem_planShards hshard)] at hnone
  exact fits_of_decodeRecords hnone record hrecord

theorem decodeShard_of_fits (h : Chunk.Admitted bs)
    (hf : ∀ record ∈ Chunk.addressTable bs, record.Fits (Chunk.header bs))
    {maxWorkers : Positive} {shard : Shard} (hs : shard ∈ (ofBytes bs range).shards maxWorkers) :
    (ofBytes bs range).decodeShard shard =
      ((recordsOf bs shard).flatMap (Chunk.decodedSpan bs), none) := by
  rw [decodeShard_ofBytes h (stop_le_of_mem_planShards hs)]
  refine decodeRecords_ofBytes h shard fun record hmem => hf record ?_
  exact List.mem_of_mem_drop (List.mem_of_mem_take hmem)

/-- If every span fits, the shards decode to the whole chunk. -/
theorem flatten_sequences (h : Chunk.Admitted bs)
    (hf : ∀ record ∈ Chunk.addressTable bs, record.Fits (Chunk.header bs))
    (maxWorkers : Positive) :
    ((ofBytes bs range).sequences maxWorkers).flatten = Chunk.decoded bs := by
  have heach : ((ofBytes bs range).shards maxWorkers).map
      (fun shard => ((ofBytes bs range).decodeShard shard).1) =
      ((ofBytes bs range).shards maxWorkers).map
        fun shard => (recordsOf bs shard).flatMap (Chunk.decodedSpan bs) := by
    refine List.map_congr_left fun shard hs => ?_
    rw [decodeShard_of_fits h hf hs]
  unfold sequences Chunk.decoded
  rw [heach, ← List.flatMap_def, ← List.flatMap_assoc, flatMap_recordsOf h]

/-! ### Shards that may fail -/

/-- Records are decoded up to the first whose span does not fit. -/
theorem isPrefix_decodeRecords (h : Chunk.Admitted bs) (shard : Shard)
    (records : List AddressRecord) :
    ((ofBytes bs range).decodeRecords shard records).1 <+:
      (records.filter (·.Fits (Chunk.header bs))).flatMap (Chunk.decodedSpan bs) := by
  induction records with
  | nil => exact List.prefix_refl _
  | cons record records ih =>
    unfold decodeRecords
    by_cases hf : record.Fits (Chunk.header bs)
    · rw [readSpan_ofBytes h shard hf, List.filter_cons_of_pos (by simpa using hf),
        List.flatMap_cons]
      exact List.prefix_append_right_inj _ |>.mpr ih
    · cases hspan : (ofBytes bs range).readSpan shard record with
      | error f => exact List.nil_prefix
      | ok apps =>
        unfold readSpan at hspan
        rw [if_neg (show ¬ record.Fits (ofBytes bs range).header from hf)] at hspan
        cases hspan

/-- What the shards decode to is part of what fits, even if some of them fail. -/
theorem sequences_sublist (h : Chunk.Admitted bs) (maxWorkers : Positive) :
    ((ofBytes bs range).sequences maxWorkers).flatten.Sublist (Chunk.fitting bs) := by
  have heach : ∀ shard ∈ (ofBytes bs range).shards maxWorkers,
      ((ofBytes bs range).decodeShard shard).1.Sublist
        (((recordsOf bs shard).filter (·.Fits (Chunk.header bs))).flatMap
          (Chunk.decodedSpan bs)) := by
    intro shard hs
    rw [decodeShard_ofBytes h (stop_le_of_mem_planShards hs)]
    exact (isPrefix_decodeRecords h shard _).sublist
  have hall := List.Sublist.flatMap_right _ heach
  rwa [← List.flatMap_assoc, ← List.filter_flatMap, flatMap_recordsOf h, List.flatMap_def] at hall

end OpenChunk

/-! ## Interleavings -/

namespace Sent

/-- Items of numbered senders, sorted by sender. -/
theorem perm_flatMap_from (items : List Sent) {senders : Nat}
    (h : ∀ item ∈ items, item.worker < senders) :
    (items.map Sent.decoded).Perm ((List.range senders).flatMap fun i => from_ i items) := by
  induction senders generalizing items with
  | zero =>
    have hempty : items = [] := List.eq_nil_iff_forall_not_mem.mpr fun item hmem =>
      absurd (h item hmem) (Nat.not_lt_zero _)
    rw [hempty]
    exact .nil
  | succ senders ih =>
    have hearlier := ih (items.filter (·.worker < senders)) (by simp)
    have hsame : ∀ i ∈ List.range senders,
        from_ i (items.filter (·.worker < senders)) = from_ i items := by
      intro i hi
      have hi := List.mem_range.mp hi
      unfold from_
      rw [List.filter_filter]
      refine congrArg _ (List.filter_congr fun item _ => ?_)
      by_cases hw : item.worker = i
      · simp [hw, hi]
      · simp [hw]
    have hlast : from_ senders items =
        (items.filter fun item => !decide (item.worker < senders)).map Sent.decoded := by
      unfold from_
      refine congrArg _ (List.filter_congr fun item hmem => ?_)
      have hlt := h item hmem
      by_cases hw : item.worker = senders
      · simp [hw]
      · have hearlier : item.worker < senders := by omega
        simp [hw, hearlier]
    have hmap := List.map_congr_left hsame
    rw [List.range_succ, List.flatMap_append, List.flatMap_singleton, hlast, List.flatMap_def,
      ← hmap, ← List.flatMap_def]
    have hsplit := (List.filter_append_perm (·.worker < senders) items).symm.map Sent.decoded
    rw [List.map_append] at hsplit
    exact hsplit.trans (hearlier.append_right _)

/-- Sorted by sender, what is interleaved from sequences is the sequences. -/
theorem Interleave.map_from {items : List Sent} {sequences : List (List DecodedAppearance)}
    (h : Interleave items sequences) :
    (List.range sequences.length).map (from_ · items) = sequences := by
  refine List.ext_getElem (by simp) fun i hi hi' => ?_
  rw [List.getElem_map, List.getElem_range]
  exact h.2 i _ (List.getElem?_eq_getElem hi')

/-- What is interleaved from sequences is a permutation of them all. -/
theorem Interleave.perm {items : List Sent} {sequences : List (List DecodedAppearance)}
    (h : Interleave items sequences) : (items.map Sent.decoded).Perm sequences.flatten := by
  have hperm := perm_flatMap_from items h.1
  rwa [List.flatMap_def, h.map_from] at hperm

/-- What is interleaved from prefixes of sequences is part of them all. -/
theorem InterleavePrefixes.subperm {items : List Sent} {sequences : List (List DecodedAppearance)}
    (h : InterleavePrefixes items sequences) :
    (items.map Sent.decoded).Subperm sequences.flatten := by
  refine (perm_flatMap_from items h.1).subperm.trans (List.Sublist.subperm ?_)
  have hwhole : (List.range sequences.length).flatMap (fun i => sequences[i]?.getD []) =
      sequences.flatten := by
    rw [List.flatMap_def]
    refine congrArg List.flatten (List.ext_getElem (by simp) fun i hi hi' => ?_)
    rw [List.getElem_map, List.getElem_range, List.getElem?_eq_getElem hi', Option.getD_some]
  rw [← hwhole]
  refine List.Sublist.flatMap_right _ fun i hi => ?_
  have hlt := List.mem_range.mp hi
  rw [List.getElem?_eq_getElem hlt, Option.getD_some]
  exact (h.2 i _ (List.getElem?_eq_getElem hlt)).sublist

end Sent

end AppearanceIndex
