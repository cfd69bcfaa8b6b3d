import Mathlib.Data.List.Nodup
import Mathlib.Data.List.Perm.Basic
import Mathlib.Data.List.Perm.Subperm
import AppearanceIndex.Proofs.Chunk.Spans

/-!
# Positions that spans cover

Each record of an address table stands for a span of positions of the appearance table, and nothing
keeps the spans of different records apart. `Chunk.emissions` are the positions of all spans, record
by record, each with the address that it belongs to. Spans that fit and that hold as many positions
together as the table has (`Chunk.CountsOut`) cover every position once just if no two of them share
one (`Chunk.once_iff_apart`).
-/

namespace AppearanceIndex

/-- A position of the appearance table in the span of a record, with the address of the record. -/
structure Emission where
  address : Address
  position : Nat

namespace AddressRecord

variable {record other : AddressRecord} {position : Nat}

def positions (record : AddressRecord) : List Nat :=
  List.range' record.offset.toNat record.count.toNat

def Covers (record : AddressRecord) (position : Nat) : Prop :=
  record.offset.toNat ≤ position ∧ position < record.spanEnd

def Overlaps (record other : AddressRecord) : Prop :=
  ∃ position, record.Covers position ∧ other.Covers position

theorem mem_positions : position ∈ record.positions ↔ record.Covers position := List.mem_range'_1

theorem nodup_positions (record : AddressRecord) : record.positions.Nodup := List.nodup_range' 1

theorem disjoint_positions :
    List.Disjoint record.positions other.positions ↔ ¬ record.Overlaps other := by
  constructor
  · rintro h ⟨position, hr, ho⟩
    exact h (mem_positions.mpr hr) (mem_positions.mpr ho)
  · intro h position hr ho
    exact h ⟨position, mem_positions.mp hr, mem_positions.mp ho⟩

/-- What a record makes a decode give. -/
def emissions (record : AddressRecord) : List Emission :=
  record.positions.map (Emission.mk record.address)

end AddressRecord

/-- As many positions as a table has, all of them in the table, are each position once just if none
occurs twice. -/
theorem count_eq_one_iff_nodup {positions : List Nat} {size : Nat}
    (hlt : ∀ position ∈ positions, position < size) (hlength : positions.length = size) :
    (∀ position < size, positions.count position = 1) ↔ positions.Nodup := by
  constructor
  · intro h
    refine List.nodup_iff_count_le_one.mpr fun position => ?_
    by_cases hp : position < size
    · exact Nat.le_of_eq (h position hp)
    · rw [List.count_eq_zero_of_not_mem fun hmem => hp (hlt position hmem)]
      exact Nat.zero_le 1
  · intro hnodup position hp
    have hsubset : positions ⊆ List.range size := fun p hmem => List.mem_range.mpr (hlt p hmem)
    have hperm : positions.Perm (List.range size) :=
      (hnodup.subperm hsubset).perm_of_length_le (by simp [hlength])
    exact List.count_eq_one_of_mem hnodup (hperm.mem_iff.mpr (List.mem_range.mpr hp))

namespace Chunk

variable {bs : Bytes} {records : List AddressRecord} {emitted : List Emission}

/-- What the records of a table make a decode give, record by record. -/
def emissions (records : List AddressRecord) : List Emission :=
  records.flatMap AddressRecord.emissions

/-- An appearance with its address comes from a position of the appearance table. -/
def ComesFrom (bs : Bytes) (decoded : DecodedAppearance) (e : Emission) : Prop :=
  decoded.address = e.address ∧ (appearanceTable bs)[e.position]? = some decoded.appearance

/-- Appearances that a decode of the whole chunk gives are traced back to where they come from: each
position of each span is where one of them comes from. -/
structure Traces (bs : Bytes) (items : List DecodedAppearance) (emitted : List Emission) :
    Prop where
  comesFrom : List.Forall₂ (ComesFrom bs) items emitted
  perm : emitted.Perm (emissions (addressTable bs))

/-- All spans fit, and together they are as long as the appearance table. -/
structure CountsOut (bs : Bytes) : Prop where
  fits : ∀ record ∈ addressTable bs, record.Fits (header bs)
  total_eq : total (·.count.toNat) (addressTable bs) = (header bs).appearanceCount.toNat

theorem map_position_emissions (records : List AddressRecord) :
    (emissions records).map Emission.position = records.flatMap AddressRecord.positions := by
  unfold emissions AddressRecord.emissions
  rw [List.map_flatMap]
  refine congrArg (records.flatMap ·) (funext fun record => ?_)
  rw [List.map_map]
  exact List.map_id _

theorem length_emissions (records : List AddressRecord) :
    (emissions records).length = total (·.count.toNat) records := by
  induction records with
  | nil => rfl
  | cons record records ih =>
    rw [total_cons, ← ih]
    simp [emissions, AddressRecord.emissions, AddressRecord.positions]

/-- Positions are emitted without repetition just if no two spans share one. -/
theorem nodup_positions_iff :
    (records.flatMap AddressRecord.positions).Nodup ↔
      records.Pairwise fun record other => ¬ record.Overlaps other := by
  rw [List.nodup_flatMap, and_iff_right fun record _ => record.nodup_positions]
  exact List.Pairwise.iff fun record other => AddressRecord.disjoint_positions

/-- Where spans fit and count out, each position is emitted once just if no two spans share one. -/
theorem once_iff_apart (h : CountsOut bs) {items : List DecodedAppearance}
    (htraces : Traces bs items emitted) :
    (∀ position < (header bs).appearanceCount.toNat,
      (emitted.map Emission.position).count position = 1) ↔
    (addressTable bs).Pairwise fun record other => ¬ record.Overlaps other := by
  have hpositions : (emitted.map Emission.position).Perm
      ((addressTable bs).flatMap AddressRecord.positions) := by
    rw [← map_position_emissions]
    exact htraces.perm.map _
  have hlength : (emitted.map Emission.position).length = (header bs).appearanceCount.toNat := by
    rw [List.length_map, htraces.perm.length_eq, length_emissions, h.total_eq]
  have hlt : ∀ position ∈ emitted.map Emission.position,
      position < (header bs).appearanceCount.toNat := by
    intro position hmem
    obtain ⟨record, hrecord, hp⟩ := List.mem_flatMap.mp (hpositions.mem_iff.mp hmem)
    exact Nat.lt_of_lt_of_le (AddressRecord.mem_positions.mp hp).2 (h.fits record hrecord)
  rw [count_eq_one_iff_nodup hlt hlength, hpositions.nodup_iff, nodup_positions_iff]

/-! ## What a decode gives, and where it comes from -/

theorem comesFrom_of_fits (ha : Admitted bs) {record : AddressRecord}
    (hf : record.Fits (header bs)) :
    List.Forall₂ (ComesFrom bs) (decodedSpan bs record) record.emissions := by
  have hlength := ha.length_spanOf hf
  unfold decodedSpan AddressRecord.emissions AddressRecord.positions
  refine List.forall₂_iff_get.mpr ⟨by simp [hlength], fun i hi _ => ?_⟩
  rw [List.length_map, hlength] at hi
  have hposition := getElem?_spanOf bs hi
  rw [List.getElem?_eq_getElem (by omega)] at hposition
  simpa [ComesFrom] using hposition.symm

theorem comesFrom_emissions (ha : Admitted bs)
    (hf : ∀ record ∈ records, record.Fits (header bs)) :
    List.Forall₂ (ComesFrom bs) (records.flatMap (decodedSpan bs)) (emissions records) := by
  induction records with
  | nil => exact .nil
  | cons record records ih =>
    have hrest := ih fun other hmem => hf other (List.mem_cons_of_mem _ hmem)
    exact List.rel_append (comesFrom_of_fits ha (hf record List.mem_cons_self)) hrest

/-- In whatever order a decode gives the appearances of a chunk, they can be traced back. -/
theorem exists_traces (ha : Admitted bs) (hf : ∀ record ∈ addressTable bs, record.Fits (header bs))
    {items : List DecodedAppearance} (hperm : items.Perm (decoded bs)) :
    ∃ emitted, Traces bs items emitted := by
  obtain ⟨emitted, hitems, hemitted⟩ := List.perm_comp_forall₂ hperm (comesFrom_emissions ha hf)
  exact ⟨emitted, hitems, hemitted⟩

theorem length_decoded (ha : Admitted bs)
    (hf : ∀ record ∈ addressTable bs, record.Fits (header bs)) :
    (decoded bs).length = total (·.count.toNat) (addressTable bs) := by
  rw [← length_emissions]
  exact (comesFrom_emissions ha hf).length_eq

end Chunk

end AppearanceIndex
