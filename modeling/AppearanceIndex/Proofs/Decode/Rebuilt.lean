import AppearanceIndex.Proofs.Chunk.Canonical
import AppearanceIndex.Proofs.Decode.Sequential

/-!
# Building undoes decoding

Workers whose sequences have no address in common cannot disturb the order within an address: of
each address, what is interleaved is what the sequences hold one after another
(`Sent.Interleave.filter_address`). The addresses of a canonical chunk ascend, so its shards are
such workers, and whoever adds what a complete decode delivers to an empty builder ends with the
builder that holds what the chunk holds (`DecodeStream.Course.ofList_received`). That builder lays
the chunk out again (`DecodeStart.rebuilds_of_canonical`).
-/

namespace AppearanceIndex

/-! ## Interleaved addresses -/

namespace Sent

variable {items : List Sent} {sequences : List (List DecodedAppearance)}
  {p : DecodedAppearance → Bool} {i : Nat}

/-- No sequence but one has elements that satisfy a predicate. -/
def OnlyIn (sequences : List (List DecodedAppearance)) (p : DecodedAppearance → Bool) (i : Nat) :
    Prop :=
  ∀ j sequence, sequences[j]? = some sequence → j ≠ i → ∀ d ∈ sequence, p d = false

theorem OnlyIn.filter_flatten (h : OnlyIn sequences p i) :
    sequences.flatten.filter p = (sequences[i]?.getD []).filter p := by
  induction sequences generalizing i with
  | nil => rfl
  | cons sequence sequences ih =>
    rw [List.flatten_cons, List.filter_append]
    cases i with
    | zero =>
      have hnone : sequences.flatten.filter p = [] := by
        rw [List.filter_eq_nil_iff]
        intro d hd hp
        obtain ⟨other, hother, hmem⟩ := List.mem_flatten.mp hd
        obtain ⟨j, hj⟩ := List.getElem?_of_mem hother
        rw [h (j + 1) other hj (Nat.succ_ne_zero j) d hmem] at hp
        cases hp
      rw [hnone, List.append_nil]
      rfl
    | succ i =>
      have hnone : sequence.filter p = [] := by
        rw [List.filter_eq_nil_iff]
        intro d hd hp
        rw [h 0 sequence rfl (Nat.succ_ne_zero i).symm d hd] at hp
        cases hp
      have hrest : OnlyIn sequences p i := fun j other hj hne =>
        h (j + 1) other hj (fun heq => hne (Nat.succ.inj heq))
      rw [hnone, List.nil_append, ih hrest]
      rfl

theorem Interleave.from_eq (h : Interleave items sequences) (i : Nat) :
    from_ i items = sequences[i]?.getD [] := by
  cases hi : sequences[i]? with
  | some sequence => exact h.2 i sequence hi
  | none =>
    have hnone : items.filter (·.worker = i) = [] := by
      rw [List.filter_eq_nil_iff]
      intro item hmem hw
      have hlt := h.1 item hmem
      have hle := List.getElem?_eq_none_iff.mp hi
      have hworker : item.worker = i := of_decide_eq_true hw
      omega
    unfold from_
    rw [hnone]
    rfl

/-- Elements that only one sequence has stay in order, however the sequences are interleaved. -/
theorem Interleave.filter_decoded (h : Interleave items sequences) (hi : OnlyIn sequences p i) :
    (items.map Sent.decoded).filter p = sequences.flatten.filter p := by
  rw [hi.filter_flatten, ← h.from_eq i]
  unfold from_
  rw [List.filter_map, List.filter_map, List.filter_filter]
  refine congrArg (List.map Sent.decoded) (List.filter_congr fun item hmem => ?_)
  by_cases hw : item.worker = i
  · simp [hw]
  · -- what another worker sent is in the sequence of that worker, which has no such elements
    obtain ⟨sequence, hsequence⟩ : ∃ sequence, sequences[item.worker]? = some sequence :=
      ⟨_, List.getElem?_eq_getElem (h.1 item hmem)⟩
    have hin : item.decoded ∈ sequence := by
      rw [← h.2 _ _ hsequence]
      exact List.mem_map_of_mem (List.mem_filter.mpr ⟨hmem, by simp⟩)
    have hfalse := hi _ _ hsequence hw _ hin
    simp [hfalse]

/-- The sequences have no address in common. -/
def Apart (sequences : List (List DecodedAppearance)) : Prop :=
  sequences.Pairwise fun s t => ∀ d ∈ s, ∀ e ∈ t, d.address ≠ e.address

theorem Apart.exists_onlyIn (h : Apart sequences) (address : Address) :
    ∃ i, OnlyIn sequences (·.address = address) i := by
  by_cases hany : ∃ (i : Nat) (sequence : List DecodedAppearance),
      sequences[i]? = some sequence ∧ ∃ d ∈ sequence, d.address = address
  · obtain ⟨i, sequence, hi, d, hd, rfl⟩ := hany
    refine ⟨i, fun j other hj hne e he => ?_⟩
    obtain ⟨hilt, rfl⟩ := List.getElem?_eq_some_iff.mp hi
    obtain ⟨hjlt, rfl⟩ := List.getElem?_eq_some_iff.mp hj
    rw [decide_eq_false_iff_not]
    rcases Nat.lt_or_gt_of_ne hne with hlt | hlt
    · exact List.pairwise_iff_getElem.mp h j i hjlt hilt hlt e he d hd
    · exact (List.pairwise_iff_getElem.mp h i j hilt hjlt hlt d hd e he).symm
  · refine ⟨0, fun j other hj _ e he => ?_⟩
    rw [decide_eq_false_iff_not]
    exact fun heq => hany ⟨j, other, hj, e, he, heq⟩

/-- Where the sequences have no address in common, interleaving them keeps the order within each
address. -/
theorem Interleave.filter_address (h : Interleave items sequences) (ha : Apart sequences)
    (address : Address) :
    (items.map Sent.decoded).filter (·.address = address) =
      sequences.flatten.filter (·.address = address) := by
  obtain ⟨i, hi⟩ := ha.exists_onlyIn address
  exact h.filter_decoded hi

end Sent

/-! ## Shards of a canonical chunk -/

variable {bs : Bytes} {range : BlockRange}

/-- Where the addresses of a chunk ascend, its shards have no address in common. -/
theorem OpenChunk.apart_sequences (h : Chunk.Admitted bs)
    (hf : ∀ record ∈ Chunk.addressTable bs, record.Fits (Chunk.header bs))
    (hs : (Chunk.addressTable bs).Pairwise (·.address < ·.address)) (maxWorkers : Positive) :
    Sent.Apart ((ofBytes bs range).sequences maxWorkers) := by
  have htable : ((ofBytes bs range).shards maxWorkers).flatMap (recordsOf bs) =
      Chunk.addressTable bs := flatMap_recordsOf h maxWorkers
  rw [← htable, List.flatMap_def, List.pairwise_flatten, List.pairwise_map] at hs
  unfold sequences Sent.Apart
  rw [List.pairwise_map]
  -- shards are pieces of the table, so the records of an earlier one come before those of a later
  refine hs.2.imp_of_mem fun {shard other} hshard hother hlt d hd e he => ?_
  rw [decodeShard_of_fits h hf hshard] at hd
  rw [decodeShard_of_fits h hf hother] at he
  obtain ⟨record, hrecord, hd⟩ := List.mem_flatMap.mp hd
  obtain ⟨record', hrecord', he⟩ := List.mem_flatMap.mp he
  obtain ⟨_, -, rfl⟩ := List.mem_map.mp hd
  obtain ⟨_, -, rfl⟩ := List.mem_map.mp he
  exact Address.ne_of_lt (hlt record hrecord record' hrecord')

theorem Chunk.Canonical.fits (h : Chunk.Canonical bs) :
    ∀ record ∈ Chunk.addressTable bs, record.Fits (Chunk.header bs) :=
  fun _ hmem => h.tiling.spanEnd_le hmem

namespace DecodeStream

variable {maxWorkers capacity : Positive} {history : DecodeHistory} {t : DecodeStream}

/-- Whoever adds what a complete decode delivers holds what the chunk holds. -/
theorem Course.ofList_received (h : Chunk.Canonical bs) (ha : Chunk.Admitted bs)
    (hc : (ofChunk (.ofBytes bs range) maxWorkers capacity).Course history t)
    (hending : history.ending = some .finished) :
    ChunkBuilder.ofList (history.received.filterMap Received.appearance?) = Chunk.builder bs := by
  obtain ⟨-, hinterleave⟩ := hc.finished_ofBytes ha hending
  have hwell := h.wellFormed_builder ha
  apply (ChunkBuilder.wellFormed_ofList _).ext hwell
  intro address
  have hheld : ((Chunk.builder bs).decoded.filter (·.address = address)).map (·.appearance) =
      (Chunk.builder bs).appearancesOf address :=
    ChunkBuilder.filter_decodedOf hwell.ascending address
  have hapart : Sent.Apart ((OpenChunk.ofBytes bs range).sequences maxWorkers) :=
    OpenChunk.apart_sequences ha h.fits h.ascending maxWorkers
  rw [ChunkBuilder.appearancesOf_ofList, hc.filterMap_received,
    hinterleave.filter_address hapart address, OpenChunk.flatten_sequences ha h.fits,
    ← Chunk.decoded_builder, hheld]

/-- A decode of a canonical chunk that nobody disturbs does not fail. -/
theorem Course.ending_of_canonical (h : Chunk.Canonical bs) (ha : Chunk.Admitted bs)
    (hc : (ofChunk (.ofBytes bs range) maxWorkers capacity).Course history t)
    (hu : history.Undisturbed) {ending : Received} (hending : history.ending = some ending) :
    ending = .finished := by
  cases ending with
  | finished => rfl
  | failure f =>
    obtain ⟨record, hmem, hfits, -⟩ := hc.error_ofBytes ha hu hending
    exact absurd (h.fits record hmem) hfits
  | appearance d => cases hc.endsAs_of_ending hending

end DecodeStream

namespace DecodeStart

/-- When canonical bytes are accepted for decoding, adding what a complete decode delivers to an
empty builder, in the order of delivery, builds these bytes again, whatever the number of workers
and the order in which they took turns. A decode that nobody disturbs is complete when it ends, and
it ends if everybody gets turns. -/
theorem rebuilds_of_canonical {name : String} {maxWorkers capacity : Positive}
    {stream : DecodeStream}
    (hs : ofSource (.ofBytes bs) name maxWorkers capacity = .started stream)
    (h : Chunk.Canonical bs) :
    (∀ history t, stream.Course history t → history.ending = some .finished →
      (ChunkBuilder.ofList (history.received.filterMap Received.appearance?)).build = bs) ∧
    (∀ history t, stream.Course history t → history.Undisturbed →
      ∀ ending, history.ending = some ending → ending = .finished) ∧
    ∀ schedule, KeepsReceiving (stream.chunk.shards maxWorkers).length schedule →
      (∀ n, (schedule n).disturbs = false) →
        ∃ n, (stream.follow schedule n).1.ending = some .finished := by
  obtain ⟨range, -, ha, rfl⟩ := eq_of_ofSource_ofBytes hs
  refine ⟨fun history t hc hending => ?_, fun history t hc hu ending hending => ?_, ?_⟩
  · rw [hc.ofList_received h ha hending]
    exact h.build_builder ha
  · exact hc.ending_of_canonical h ha hu hending
  · intro schedule hk hnever
    have hrealizes := DecodeStream.realizes_ofBytes ha range maxWorkers capacity
    obtain ⟨n, hu, hends⟩ := hrealizes.ends schedule hk hnever
    obtain ⟨ending, hending⟩ := Option.ne_none_iff_exists'.mp hends
    have hfinished : ending = .finished :=
      (DecodeStream.course_follow _ schedule n).ending_of_canonical h ha hu hending
    exact ⟨n, by rw [hending, hfinished]⟩

def evenBytes : Bytes :=
  let records : List AddressRecord := [⟨.ofNat 1, 0, 2⟩, ⟨.ofNat 2, 2, 2⟩]
  let apps : List Appearance := [⟨11, 3⟩, ⟨10, 1⟩, ⟨10, 0⟩, ⟨10, 0⟩]
  ChunkHeader.toBytes ⟨ChunkHeader.chunkMagic, Vector.replicate 32 0, 2, 4⟩ ++
    records.flatMap AddressRecord.toBytes ++ apps.flatMap Appearance.toBytes

/-- Two workers whose appearances arrive in turns. -/
theorem rebuilds_even :
    ∃ stream, ofSource (.ofBytes evenBytes) "10-19.bin" ⟨2, by decide⟩ ⟨2, by decide⟩ =
        .started stream ∧
      (stream.follow DecodeStream.takeTurns 80).1.received.filterMap Received.appearance? =
        [⟨.ofNat 1, 11, 3⟩, ⟨.ofNat 2, 10, 0⟩, ⟨.ofNat 1, 10, 1⟩, ⟨.ofNat 2, 10, 0⟩] ∧
      (ChunkBuilder.ofList [⟨.ofNat 1, 11, 3⟩, ⟨.ofNat 2, 10, 0⟩, ⟨.ofNat 1, 10, 1⟩,
        ⟨.ofNat 2, 10, 0⟩]).build = evenBytes := by
  have hname : BlockRange.parse? "10-19.bin" = some ⟨10, 19⟩ := by decide +kernel
  have hadmitted : Chunk.Admitted evenBytes := by decide +kernel
  have hcanonical : Chunk.Canonical evenBytes := by decide +kernel
  have hstart := ofSource_ofBytes hname hadmitted ⟨2, by decide⟩
    (show (⟨2, by decide⟩ : Positive).val ≤ maxCapacity by decide)
  have hcourse := DecodeStream.course_follow (.ofChunk (OpenChunk.ofBytes evenBytes ⟨10, 19⟩)
    ⟨2, by decide⟩ ⟨2, by decide⟩) DecodeStream.takeTurns 80
  have hreceived : (DecodeStream.follow (.ofChunk (OpenChunk.ofBytes evenBytes ⟨10, 19⟩)
      ⟨2, by decide⟩ ⟨2, by decide⟩) DecodeStream.takeTurns 80).1.received.filterMap
        Received.appearance? =
      [⟨.ofNat 1, 11, 3⟩, ⟨.ofNat 2, 10, 0⟩, ⟨.ofNat 1, 10, 1⟩, ⟨.ofNat 2, 10, 0⟩] := by
    decide +kernel
  have hrebuilt := (rebuilds_of_canonical hstart hcanonical).1 _ _ hcourse (by decide +kernel)
  rw [hreceived] at hrebuilt
  exact ⟨_, hstart, hreceived, hrebuilt⟩

end DecodeStart

end AppearanceIndex
