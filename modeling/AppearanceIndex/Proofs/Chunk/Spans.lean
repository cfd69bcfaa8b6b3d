import AppearanceIndex.Proofs.Chunk.Tables
import AppearanceIndex.Total
import Mathlib.Tactic.MkIffOfInductiveProp

/-!
# Spans that follow one another

The spans of an address table tile the appearance table when each begins where those before it end
and the last ends with the table (`Chunk.Tiling`). Tiling spans all fit, and one after another they
are the table.
-/

namespace AppearanceIndex

namespace Chunk

/-- The first span begins at `start`, and each of the others where those before it end. -/
def Follow (start : Nat) (records : List AddressRecord) : Prop :=
  ∀ i record, records[i]? = some record →
    record.offset.toNat = start + total (·.count.toNat) (records.take i)

/-- The spans follow one another and fill a table of `count` appearances. -/
@[mk_iff]
structure Tiling (records : List AddressRecord) (count : Nat) : Prop where
  follow : Follow 0 records
  total_eq : total (·.count.toNat) records = count

variable {records : List AddressRecord} {record : AddressRecord} {start count : Nat}

theorem follow_cons : Follow start (record :: records) ↔
    record.offset.toNat = start ∧ Follow (start + record.count.toNat) records := by
  constructor
  · intro h
    refine ⟨h 0 record rfl, fun i other hi => ?_⟩
    rw [h (i + 1) other hi, List.take_succ_cons, total_cons, Nat.add_assoc]
  · rintro ⟨hfirst, hrest⟩ i other hi
    cases i with
    | zero =>
      cases hi
      exact hfirst
    | succ i => rw [hrest i other hi, List.take_succ_cons, total_cons, Nat.add_assoc]

instance decidableFollow : (start : Nat) → (records : List AddressRecord) →
    Decidable (Follow start records)
  | _, [] => .isTrue fun _ _ hi => nomatch hi
  | start, record :: records =>
    letI := decidableFollow (start + record.count.toNat) records
    decidable_of_iff' _ follow_cons

instance (records : List AddressRecord) (count : Nat) : Decidable (Tiling records count) :=
  decidable_of_iff' _ (tiling_iff records count)

theorem Tiling.spanEnd_le (h : Tiling records count) (hmem : record ∈ records) :
    record.spanEnd ≤ count := by
  obtain ⟨i, hi⟩ := List.getElem?_of_mem hmem
  have hlast := total_take_le (·.count.toNat) records (i + 1)
  rw [List.take_add_one, hi, Option.toList_some, total_append, total_cons, total_nil,
    h.total_eq] at hlast
  unfold AddressRecord.spanEnd
  rw [h.follow i record hi]
  omega

/-- Spans that follow one another are a piece of the table. -/
theorem Follow.flatMap_spans (h : Follow start records) (table : List Appearance) :
    (records.flatMap fun record => (table.drop record.offset.toNat).take record.count.toNat) =
      (table.drop start).take (total (·.count.toNat) records) := by
  induction records generalizing start with
  | nil => rw [total_nil, List.take_zero, List.flatMap_nil]
  | cons record records ih =>
    obtain ⟨hfirst, hrest⟩ := follow_cons.mp h
    rw [List.flatMap_cons, ih hrest, hfirst, total_cons, List.take_add, List.drop_drop]

variable {bs : Bytes}

theorem Tiling.length_spanOf (h : Tiling records (header bs).appearanceCount.toNat)
    (ha : Admitted bs) (hmem : record ∈ records) :
    (spanOf bs record).length = record.count.toNat := ha.length_spanOf (h.spanEnd_le hmem)

theorem Tiling.flatMap_spanOf (h : Tiling records (header bs).appearanceCount.toNat)
    (ha : Admitted bs) : records.flatMap (spanOf bs) = appearanceTable bs := by
  have hpiece := h.follow.flatMap_spans (appearanceTable bs)
  unfold spanOf
  rw [hpiece, List.drop_zero, h.total_eq]
  exact List.take_of_length_le (Nat.le_of_eq ha.length_appearanceTable)

end Chunk

end AppearanceIndex
