import Mathlib.Logic.ExistsUnique
import AppearanceIndex.Decode.Shard

/-!
# Shards divide the table

Shards that lie one behind another, none of them empty, tile the positions between two
(`Shard.Tile`): each position is in one of them and in no other, and what lies in them, one after
another, is that part of a table. `planShards` tiles the whole table.
-/

namespace AppearanceIndex

namespace Shard

/-- Each shard begins where the one before it stops, and has a position. -/
inductive Tile : Nat → List Shard → Nat → Prop where
  | nil (position : Nat) : Tile position [] position
  | cons {shard : Shard} {shards : List Shard} {stop : Nat} (h : 0 < shard.length)
      (rest : Tile shard.stop shards stop) : Tile shard.start (shard :: shards) stop

variable {shards : List Shard} {shard : Shard} {start stop position : Nat}

theorem Tile.le (h : Tile start shards stop) : start ≤ stop := by
  induction h with
  | nil => exact Nat.le_refl _
  | cons _ _ ih => exact Nat.le_trans (Nat.le_add_right _ _) ih

theorem Tile.snoc (h : Tile start shards shard.start) (hl : 0 < shard.length) :
    Tile start (shards ++ [shard]) shard.stop := by
  generalize hs : shard.start = middle at h
  induction h with
  | nil =>
    subst hs
    exact .cons hl (.nil _)
  | cons hl' _ ih => exact .cons hl' (ih hs)

theorem Tile.bounds (h : Tile start shards stop) (hs : shard ∈ shards) :
    start ≤ shard.start ∧ shard.stop ≤ stop := by
  induction h with
  | nil => cases hs
  | @cons first rest stop hl hrest ih =>
    rcases List.mem_cons.mp hs with rfl | hs
    · exact ⟨Nat.le_refl _, hrest.le⟩
    · obtain ⟨hstart, hstop⟩ := ih hs
      exact ⟨Nat.le_trans (Nat.le_add_right _ _) hstart, hstop⟩

theorem Tile.pairwise (h : Tile start shards stop) :
    shards.Pairwise fun a b => a.stop ≤ b.start := by
  induction h with
  | nil => exact .nil
  | cons _ hrest ih => exact .cons (fun _ hs => (hrest.bounds hs).1) ih

theorem Tile.length_pos (h : Tile start shards stop) (hs : shard ∈ shards) : 0 < shard.length := by
  induction h with
  | nil => cases hs
  | cons hl _ ih =>
    rcases List.mem_cons.mp hs with rfl | hs
    · exact hl
    · exact ih hs

/-- A position belongs to exactly one shard. -/
theorem Tile.existsUnique (h : Tile start shards stop) (hp : start ≤ position)
    (hp' : position < stop) :
    ∃! shard, shard ∈ shards ∧ shard.start ≤ position ∧ position < shard.stop := by
  induction h with
  | nil => omega
  | @cons first rest stop hl hrest ih =>
    by_cases hfirst : position < first.stop
    · refine ⟨first, ⟨List.mem_cons_self, hp, hfirst⟩, fun other ⟨hmem, hother, _⟩ => ?_⟩
      rcases List.mem_cons.mp hmem with heq | hmem
      · exact heq
      · have hbehind := (hrest.bounds hmem).1
        omega
    · obtain ⟨shard, ⟨hmem, hin⟩, hunique⟩ := ih (by omega) hp'
      refine ⟨shard, ⟨List.mem_cons_of_mem _ hmem, hin⟩, fun other ⟨hother, hin'⟩ => ?_⟩
      rcases List.mem_cons.mp hother with rfl | hother
      · exact absurd hin'.2 hfirst
      · exact hunique other ⟨hother, hin'⟩

/-- What lies in the shards is what lies between the first position and the last. -/
theorem Tile.flatMap_slices {α : Type} (h : Tile start shards stop) (table : List α) :
    (shards.flatMap fun shard => (table.drop shard.start).take shard.length) =
      (table.drop start).take (stop - start) := by
  induction h with
  | nil => simp
  | @cons first rest stop hl hrest ih =>
    have hle := hrest.le
    have hlength : stop - first.start = first.length + (stop - first.stop) := by
      unfold Shard.stop at hle ⊢
      omega
    rw [List.flatMap_cons, ih, hlength, List.take_add, List.drop_drop]
    rfl

/-- Shards of one length from the beginning on. -/
theorem tile_even {length : Nat} (h : 0 < length) (count : Nat) :
    Tile 0 ((List.range count).map fun i => ⟨i * length, length⟩) (count * length) := by
  induction count with
  | zero =>
    rw [Nat.zero_mul]
    exact .nil 0
  | succ count ih =>
    have hnext : Tile 0 _ (Shard.mk (count * length) length).stop := ih.snoc h
    rw [List.range_succ, List.map_append, Nat.succ_mul]
    exact hnext

end Shard

/-! ## The plan -/

variable {addresses maxWorkers others : Nat}

/-- All shards have one length but the last, which takes the remainder too. -/
theorem planShards_eq_append (h : min maxWorkers addresses = others + 1) :
    planShards addresses maxWorkers =
      ((List.range others).map fun i =>
        ⟨i * (addresses / (others + 1)), addresses / (others + 1)⟩) ++
      [⟨others * (addresses / (others + 1)),
        addresses / (others + 1) + addresses % (others + 1)⟩] := by
  simp only [planShards, h, List.range_succ, List.map_append, List.map_singleton, if_true]
  congr 1
  refine List.map_congr_left fun i hi => ?_
  have hlt := List.mem_range.mp hi
  rw [if_neg (by omega)]

theorem tile_planShards (addresses : Nat) (h : 0 < maxWorkers) :
    Shard.Tile 0 (planShards addresses maxWorkers) addresses := by
  cases hw : min maxWorkers addresses with
  | zero =>
    have hnone : addresses = 0 := by omega
    have hnil : planShards addresses maxWorkers = [] := by
      unfold planShards
      rw [hw]
      rfl
    rw [hnil, hnone]
    exact .nil 0
  | succ others =>
    have hdiv := Nat.div_add_mod addresses (others + 1)
    have heach : 0 < addresses / (others + 1) := Nat.div_pos (by omega) (by omega)
    rw [planShards_eq_append hw]
    generalize addresses / (others + 1) = each at hdiv heach ⊢
    generalize addresses % (others + 1) = remainder at hdiv ⊢
    -- the last shard stops where the table does
    have hstop : (Shard.mk (others * each) (each + remainder)).stop = addresses := by
      rw [Nat.succ_mul, Nat.add_assoc] at hdiv
      exact hdiv
    rw [← hstop]
    exact (Shard.tile_even heach others).snoc (Nat.add_pos_left heach remainder)

theorem stop_le_of_mem_planShards {shard : Shard}
    (h : shard ∈ planShards addresses maxWorkers) : shard.stop ≤ addresses := by
  cases maxWorkers with
  | zero =>
    rw [planShards, Nat.zero_min] at h
    cases h
  | succ more => exact ((tile_planShards addresses (Nat.succ_pos more)).bounds h).2

/-- The slices of a table that its shards stand for make up the table. -/
theorem flatMap_planShards {α : Type} (table : List α) (h : 0 < maxWorkers) :
    ((planShards table.length maxWorkers).flatMap fun shard =>
      (table.drop shard.start).take shard.length) = table := by
  rw [(tile_planShards table.length h).flatMap_slices]
  exact List.take_length

end AppearanceIndex
