import AppearanceIndex.Decode.Worker
import AppearanceIndex.Proofs.Decode.Shards
import AppearanceIndex.Proofs.Word.Chunk

/-!
# Shards in words

The plan of the shards and the reads of a worker, with positions as words of 32 bits. Every product
and sum of the plan is at most the number of addresses, which is a word. A worker adds the bounds
of its shard for the texts of its errors; what a shard of the plan adds up to is no more either.
-/

namespace AppearanceIndex

open Word

structure ShardWords where
  start : BitVec 32
  length : BitVec 32

namespace ShardWords

def toShard (s : ShardWords) : Shard := ⟨s.start.toNat, s.length.toNat⟩

def stop? (s : ShardWords) : Option (BitVec 32) := add? s.start s.length

theorem is_stop? {s : ShardWords} (h : s.toShard.stop < 2 ^ 32) : Is s.stop? s.toShard.stop :=
  is_add? rfl h

end ShardWords

/-! ## The plan -/

/-- A count as a word of 32 bits; the largest one if it has more. -/
def narrow (count : BitVec 64) : BitVec 32 :=
  if count.toNat < 2 ^ 32 then count.setWidth 32 else BitVec.allOnes 32

theorem toNat_narrow (count : BitVec 64) : (narrow count).toNat = min count.toNat (2 ^ 32 - 1) := by
  unfold narrow
  split
  · next hlt =>
    rw [BitVec.toNat_setWidth, Nat.mod_eq_of_lt hlt]
    omega
  · rw [BitVec.toNat_allOnes]
    omega

def shardAt? (workers each extra worker : BitVec 32) : Option ShardWords := do
  let start ← mul? worker each
  let last ← sub? workers 1
  if worker = last then
    let length ← add? each extra
    return ⟨start, length⟩
  else
    return ⟨start, each⟩

def planShards? (addresses : BitVec 32) (maxWorkers : BitVec 64) : Option (List ShardWords) := do
  let most := narrow maxWorkers
  let workers := if most ≤ addresses then most else addresses
  if workers = 0 then
    return []
  let each ← div? addresses workers
  let extra ← mod? addresses workers
  (List.range workers.toNat).mapM fun i => shardAt? workers each extra (BitVec.ofNat 32 i)

theorem shardAt?_eq {workers each extra worker : BitVec 32} {addresses : Nat}
    (ha : workers.toNat * each.toNat + extra.toNat = addresses) (hlt : addresses < 2 ^ 32)
    (hw : worker.toNat < workers.toNat) :
    (shardAt? workers each extra worker).map ShardWords.toShard =
      some ⟨worker.toNat * each.toNat,
        if worker.toNat + 1 = workers.toNat then each.toNat + extra.toNat else each.toNat⟩ := by
  have hpassed := Nat.mul_le_mul_right each.toNat hw
  rw [Nat.succ_mul] at hpassed
  have hstart : Is (mul? worker each) (worker.toNat * each.toNat) := is_mul? rfl (by omega)
  have hlast : Is (sub? workers 1) (workers.toNat - 1) := is_sub? (by
    rw [show (1 : BitVec 32).toNat = 1 from rfl]
    omega)
  have hlength : Is (add? each extra) (each.toNat + extra.toNat) := is_add? rfl (by omega)
  obtain ⟨start, hstart?, hstart⟩ := is_iff.mp hstart
  obtain ⟨last, hlast?, hlast⟩ := is_iff.mp hlast
  obtain ⟨length, hlength?, hlength⟩ := is_iff.mp hlength
  have hiff : worker = last ↔ worker.toNat + 1 = workers.toNat := by
    rw [← BitVec.toNat_inj, hlast]
    omega
  unfold shardAt?
  simp only [hstart?, hlast?, hlength?, hiff, bind, Option.bind]
  split
  · simp only [pure, Option.map_some, ShardWords.toShard, hstart, hlength]
  · simp only [pure, Option.map_some, ShardWords.toShard, hstart]

/-- Computations that all give a value give the list of the values. -/
theorem exists_mapM_eq_some {α β γ : Type} {f : α → Option β} {g : β → γ} {target : α → γ}
    {inputs : List α} (h : ∀ a ∈ inputs, (f a).map g = some (target a)) :
    ∃ outputs, inputs.mapM f = some outputs ∧ outputs.map g = inputs.map target := by
  induction inputs with
  | nil => exact ⟨[], rfl, rfl⟩
  | cons a inputs ih =>
    rw [List.forall_mem_cons] at h
    obtain ⟨output, hsome, houtput⟩ := Option.map_eq_some_iff.mp h.1
    obtain ⟨outputs, hsome', houtputs⟩ := ih h.2
    refine ⟨output :: outputs, ?_, by rw [List.map_cons, List.map_cons, houtput, houtputs]⟩
    rw [List.mapM_cons, hsome, hsome']
    rfl

theorem planShards?_eq (addresses : BitVec 32) (maxWorkers : BitVec 64) :
    ∃ shards, planShards? addresses maxWorkers = some shards ∧
      shards.map ShardWords.toShard = planShards addresses.toNat maxWorkers.toNat := by
  have hlt := addresses.isLt
  have hworkers : (if narrow maxWorkers ≤ addresses then narrow maxWorkers else addresses).toNat =
      min maxWorkers.toNat addresses.toNat := by
    have hnarrow := toNat_narrow maxWorkers
    split
    · next hle =>
      rw [BitVec.le_def] at hle
      omega
    · next hle =>
      rw [BitVec.le_def] at hle
      omega
  unfold planShards? planShards
  simp only
  generalize (if narrow maxWorkers ≤ addresses then narrow maxWorkers else addresses) = workers
    at hworkers ⊢
  rw [← hworkers]
  by_cases hzero : workers = 0
  · subst hzero
    exact ⟨[], by rw [if_pos rfl]; rfl, rfl⟩
  · have hpos : 0 < workers.toNat :=
      Nat.pos_of_ne_zero fun heq => hzero (BitVec.eq_of_toNat_eq heq)
    have hdiv := Nat.div_add_mod addresses.toNat workers.toNat
    obtain ⟨each, heach?, heach⟩ := is_iff.mp (is_div? (x := addresses) rfl hpos)
    obtain ⟨extra, hextra?, hextra⟩ := is_iff.mp (is_mod? (x := addresses) rfl hpos)
    rw [← heach, ← hextra] at hdiv ⊢
    rw [if_neg hzero, heach?, hextra?]
    refine exists_mapM_eq_some fun i hi => ?_
    have hi : i < workers.toNat := List.mem_range.mp hi
    have hword : (BitVec.ofNat 32 i).toNat = i := toNat_ofNat_of_lt (by omega)
    have hworker : (BitVec.ofNat 32 i).toNat < workers.toNat := by rwa [hword]
    have hshard := shardAt?_eq hdiv hlt hworker
    rw [hword] at hshard
    exact hshard

/-- A shard of a plan stops at a word. -/
theorem stop_lt_of_mem_planShards? {addresses : BitVec 32} {maxWorkers : BitVec 64}
    {shards : List ShardWords} (h : planShards? addresses maxWorkers = some shards)
    {shard : ShardWords} (hs : shard ∈ shards) : shard.toShard.stop < 2 ^ 32 := by
  obtain ⟨_, hsome, hshards⟩ := planShards?_eq addresses maxWorkers
  rw [h, Option.some.injEq] at hsome
  subst hsome
  have hmem : shard.toShard ∈ planShards addresses.toNat maxWorkers.toNat := by
    rw [← hshards]
    exact List.mem_map_of_mem hs
  exact Nat.lt_of_le_of_lt (stop_le_of_mem_planShards hmem) addresses.isLt

/-- The plan of any table for any number of workers. No operation on words overflows. The shards
are as many as there are workers or addresses. None is empty, they ascend, and every address is in
exactly one of them. All have the rounded quotient for their length but the last, which is longer by
the remainder. -/
theorem plan_is_partition (addresses : BitVec 32) (maxWorkers : BitVec 64)
    (h : 0 < maxWorkers.toNat) :
    let shards := planShards addresses.toNat maxWorkers.toNat
    let number := min maxWorkers.toNat addresses.toNat
    (∃ words, planShards? addresses maxWorkers = some words ∧
        words.map ShardWords.toShard = shards) ∧
      Shard.Tile 0 shards addresses.toNat ∧
      (∀ shard ∈ shards, 0 < shard.length ∧ shard.stop ≤ addresses.toNat) ∧
      shards.Pairwise (fun a b => a.stop ≤ b.start) ∧
      (∀ position < addresses.toNat,
        ∃! shard, shard ∈ shards ∧ shard.start ≤ position ∧ position < shard.stop) ∧
      shards.length = number ∧
      (shards ≠ [] → ∃ others last, shards = others ++ [last] ∧
        (∀ shard ∈ others, shard.length = addresses.toNat / number) ∧
        last.length = addresses.toNat / number + addresses.toNat % number ∧
        addresses.toNat % number < number) := by
  intro shards number
  have htile : Shard.Tile 0 shards addresses.toNat := tile_planShards addresses.toNat h
  refine ⟨planShards?_eq addresses maxWorkers, htile,
    fun shard hs => ⟨htile.length_pos hs, (htile.bounds hs).2⟩, htile.pairwise,
    fun position hp => htile.existsUnique (Nat.zero_le _) hp, by simp [shards, planShards, number],
    fun hne => ?_⟩
  cases hnumber : number with
  | zero =>
    have hnil : shards = [] := by
      unfold shards planShards
      rw [show min maxWorkers.toNat addresses.toNat = 0 from hnumber]
      rfl
    exact absurd hnil hne
  | succ others =>
    refine ⟨_, _, planShards_eq_append hnumber, fun shard hs => ?_, rfl,
      Nat.mod_lt _ (Nat.succ_pos others)⟩
    obtain ⟨i, -, rfl⟩ := List.mem_map.mp hs
    rfl

/-- More workers than fit in a word of 32 bits, and three for a table that they do not divide. -/
theorem plan_of_seven_addresses :
    0 < (3 : BitVec 64).toNat ∧ planShards 7 3 = [⟨0, 2⟩, ⟨2, 2⟩, ⟨4, 3⟩] ∧
      (∃ words, planShards? 7 3 = some words ∧
        words.map ShardWords.toShard = [⟨0, 2⟩, ⟨2, 2⟩, ⟨4, 3⟩]) ∧
      (∃ words, planShards? 2 (BitVec.allOnes 64) = some words ∧
        words.map ShardWords.toShard = [⟨0, 1⟩, ⟨1, 1⟩]) :=
  ⟨by decide, by decide, (plan_is_partition 7 3 (by decide)).1,
    (plan_is_partition 2 (BitVec.allOnes 64) (by decide)).1⟩

/-! ## Reads of a worker -/

namespace OpenChunk

def readRecords? (chunk : OpenChunk) (shard : ShardWords) :
    Option (Except Failure (List AddressRecord)) := do
  let start ← number? (AddressRecord.location? chunk.header shard.start)
  let count ← number? (bytes? shard.length ChunkHeader.addressRecordWidth)
  match chunk.source.read start count with
  | .ok bs => return .ok (AddressRecord.decodeAll bs)
  | .error e =>
    let stop ← number? shard.stop?
    return .error ((Failure.ofError (.io .readAddressRecords e)).within
      (.decodeShard shard.start.toNat stop chunk.range))

def readSpan? (chunk : OpenChunk) (shard : ShardWords) (record : AddressRecord) :
    Option (Except Failure (List Appearance)) := do
  let spanEnd ← number? record.spanEnd?
  if spanEnd ≤ chunk.header.appearanceCount.toNat then
    let start ← number? (record.spanStart? chunk.header)
    let count ← number? record.spanBytes?
    match chunk.source.read start count with
    | .ok bs => return .ok (Appearance.decodeAll bs)
    | .error e =>
      let stop ← number? shard.stop?
      return .error ((Failure.ofError (.io .readAppearances e)).within
        (.decodeAddress shard.start.toNat stop chunk.range record.address))
  else
    let stop ← number? shard.stop?
    return .error ((Failure.ofError (record.spanError chunk.header chunk.range)).within
      (.decodeShard shard.start.toNat stop chunk.range))

variable (chunk : OpenChunk) {shard : ShardWords} (hs : shard.toShard.stop < 2 ^ 32)
include hs

theorem readRecords?_eq : chunk.readRecords? shard = some (chunk.readRecords shard.toShard) := by
  have hstart : number? (AddressRecord.location? chunk.header shard.start) =
      some (AddressRecord.location chunk.header shard.toShard.start) :=
    AddressRecord.is_location? chunk.header shard.start
  have hbytes : number? (bytes? shard.length ChunkHeader.addressRecordWidth) =
      some (shard.toShard.length * ChunkHeader.addressRecordWidth) :=
    is_bytes? shard.length (by decide)
  have hstop : number? shard.stop? = some shard.toShard.stop := ShardWords.is_stop? hs
  simp only [readRecords?, readRecords, hstart, hbytes, hstop, bind, Option.bind]
  cases chunk.source.read (AddressRecord.location chunk.header shard.toShard.start)
    (shard.toShard.length * ChunkHeader.addressRecordWidth) with
  | ok bs => rfl
  | error e => rfl

theorem readSpan?_eq (record : AddressRecord) :
    chunk.readSpan? shard record = some (chunk.readSpan shard.toShard record) := by
  have hspanEnd : number? record.spanEnd? = some record.spanEnd := record.is_spanEnd?
  have hstart : number? (record.spanStart? chunk.header) = some (record.spanStart chunk.header) :=
    record.is_spanStart? chunk.header
  have hbytes : number? record.spanBytes? = some record.spanBytes := record.is_spanBytes?
  have hstop : number? shard.stop? = some shard.toShard.stop := ShardWords.is_stop? hs
  simp only [readSpan?, readSpan, hspanEnd, hstart, hbytes, hstop, bind, Option.bind]
  by_cases hfits : record.Fits chunk.header
  · have hle : record.spanEnd ≤ chunk.header.appearanceCount.toNat := hfits
    rw [if_pos hle, if_pos hfits]
    cases chunk.source.read (record.spanStart chunk.header) record.spanBytes with
    | ok bs => rfl
    | error e => rfl
  · have hlt : ¬ record.spanEnd ≤ chunk.header.appearanceCount.toNat := hfits
    rw [if_neg hlt, if_neg hfits]
    rfl

end OpenChunk

end AppearanceIndex
