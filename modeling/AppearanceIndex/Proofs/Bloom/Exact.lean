import AppearanceIndex.Proofs.Bloom.Written

/-!
# Exactly what a filter holds

The blocks of a builder are runs of consecutive insertions, each as long as the capacity allows and
the last perhaps shorter (`BloomBuilder.runAt`, `BloomBuilder.blocks_ofList`). A block has the bits
of the addresses of its run and no others (`BloomBlock.has_ofRun`). So a test of the file that was
built says yes to an address exactly if the addresses of one run between them have its bits
(`BloomBuilder.isMember_iff_run`), whether it was inserted or not.
-/

namespace AppearanceIndex

/-! ## Blocks of one run -/

namespace BloomBlock

/-- The block into which a run of addresses was inserted. -/
def ofRun (run : List Address) : BloomBlock := run.foldl insert empty

theorem ofRun_append_single (run : List Address) (address : Address) :
    ofRun (run ++ [address]) = (ofRun run).insert address := by
  unfold ofRun
  rw [List.foldl_append]
  rfl

theorem inserted_ofRun (run : List Address) : (ofRun run).inserted = run.length := by
  induction run using List.reverseRecOn with
  | nil => rfl
  | append_singleton run address ih =>
    have hinserted : ((ofRun run).insert address).inserted = (ofRun run).inserted + 1 := rfl
    rw [ofRun_append_single, hinserted, ih, List.length_append, List.length_singleton]

theorem not_isSetIn_empty (bit : Nat) : ¬ Bloom.IsSetIn empty.bits bit := by
  have hzero : empty.bits.toList.getD (Bloom.byteIndex bit) 0 = 0 := by
    show (Vector.replicate Bloom.bitsetWidth (0 : UInt8)).toList.getD _ 0 = 0
    rw [Vector.toList_replicate, List.getD_eq_getElem?_getD, List.getElem?_replicate]
    split <;> rfl
  unfold Bloom.IsSetIn
  rw [hzero, Bloom.isSet_iff, UInt8.zero_and]
  exact fun hne => hne rfl

theorem isSetIn_ofRun {run : List Address} {bit : Nat} (hb : bit < Bloom.blockBits) :
    Bloom.IsSetIn (ofRun run).bits bit ↔ ∃ address ∈ run, bit ∈ Bloom.bitsOf address := by
  induction run using List.reverseRecOn with
  | nil =>
    constructor
    · exact fun hset => absurd hset (not_isSetIn_empty bit)
    · rintro ⟨address, hmem, -⟩
      cases hmem
  | append_singleton run last ih =>
    rw [ofRun_append_single, isSetIn_insert _ _ hb, ih]
    simp [or_and_right, exists_or]

/-- A block has the bits of an address if the addresses of its run have them between them. -/
theorem has_ofRun (run : List Address) (address : Address) :
    (ofRun run).Has address ↔
      ∀ bit ∈ Bloom.bitsOf address, ∃ other ∈ run, bit ∈ Bloom.bitsOf other :=
  forall₂_congr fun _ hbit => isSetIn_ofRun (Bloom.lt_of_mem_bitsOf hbit)

end BloomBlock

/-! ## Runs -/

namespace BloomBuilder

/-- The next address begins a new block. -/
def Full (b : BloomBuilder) : Prop := ∀ block ∈ b.newest.head?, b.capacity ≤ block.inserted

theorem Full.insert_eq {b : BloomBuilder} (h : b.Full) (address : Address) :
    b.insert address = ⟨b.capacity, BloomBlock.ofRun [address] :: b.newest⟩ := by
  unfold insert
  cases hnewest : b.newest with
  | nil => rfl
  | cons block older =>
    have hle : b.capacity ≤ block.inserted := h block (by rw [hnewest]; rfl)
    dsimp only
    rw [if_neg (Nat.not_lt_of_ge hle)]
    rfl

theorem insert_ofRun {capacity : Nat} {run : List Address} (h : run.length < capacity)
    (older : List BloomBlock) (address : Address) :
    insert ⟨capacity, BloomBlock.ofRun run :: older⟩ address =
      ⟨capacity, BloomBlock.ofRun (run ++ [address]) :: older⟩ := by
  have hroom : (BloomBlock.ofRun run).inserted < capacity := by
    rw [BloomBlock.inserted_ofRun]
    exact h
  unfold insert
  dsimp only
  rw [if_pos hroom, BloomBlock.ofRun_append_single]

theorem full_ofRun {capacity : Nat} {run : List Address} (h : capacity ≤ run.length)
    (older : List BloomBlock) : Full ⟨capacity, BloomBlock.ofRun run :: older⟩ := by
  intro block hblock
  cases hblock
  rw [BloomBlock.inserted_ofRun]
  exact h

/-- A run that is not longer than a block fills one block. -/
theorem Full.foldl_run {b : BloomBuilder} (h : b.Full) {run : List Address} (hne : run ≠ [])
    (hl : run.length ≤ max b.capacity 1) :
    run.foldl insert b = ⟨b.capacity, BloomBlock.ofRun run :: b.newest⟩ := by
  induction run using List.reverseRecOn with
  | nil => exact absurd rfl hne
  | append_singleton run last ih =>
    rw [List.length_append, List.length_singleton] at hl
    rw [List.foldl_append, List.foldl_cons, List.foldl_nil]
    rcases List.eq_nil_or_concat run with rfl | ⟨front, mid, hrun⟩
    · exact h.insert_eq last
    · have hrun : run ≠ [] := by
        rw [hrun]
        simp
      have hpos : 0 < run.length := List.length_pos_iff.mpr hrun
      rw [ih hrun (by omega)]
      exact insert_ofRun (by omega) b.newest last

/-- The addresses that are inserted into the block with a number. -/
def runAt (capacity : Nat) (addresses : List Address) (i : Nat) : List Address :=
  (addresses.drop (i * max capacity 1)).take (max capacity 1)

theorem runAt_zero (capacity : Nat) (addresses : List Address) :
    runAt capacity addresses 0 = addresses.take (max capacity 1) := by
  unfold runAt
  rw [Nat.zero_mul, List.drop_zero]

theorem runAt_succ (capacity : Nat) (addresses : List Address) (i : Nat) :
    runAt capacity addresses (i + 1) =
      runAt capacity (addresses.drop (max capacity 1)) i := by
  unfold runAt
  rw [List.drop_drop, Nat.succ_mul, Nat.add_comm]

/-- How many blocks so many addresses need. -/
def blocksFor (capacity count : Nat) : Nat := (count + max capacity 1 - 1) / max capacity 1

theorem blocksFor_zero (capacity : Nat) : blocksFor capacity 0 = 0 :=
  Nat.div_eq_of_lt (by omega)

theorem blocksFor_eq_succ (capacity : Nat) {count : Nat} (h : 0 < count) :
    blocksFor capacity count = blocksFor capacity (count - max capacity 1) + 1 := by
  unfold blocksFor
  have hpos : 0 < max capacity 1 := by omega
  generalize max capacity 1 = length at hpos
  rw [show count + length - 1 = count - 1 + length by omega, Nat.add_div_right _ hpos]
  by_cases hle : length ≤ count
  · rw [show count - length + length - 1 = count - 1 by omega]
  · rw [Nat.div_eq_of_lt (show count - 1 < length by omega),
      Nat.div_eq_of_lt (show count - length + length - 1 < length by omega)]

/-- Insertions go on run by run. Only the last run may leave room in its block, so there has to be
none only if there is more to insert. -/
theorem reverse_newest_foldl {b : BloomBuilder} {addresses : List Address}
    (h : addresses ≠ [] → b.Full) :
    (addresses.foldl insert b).newest.reverse = b.newest.reverse ++
      (List.range (blocksFor b.capacity addresses.length)).map fun i =>
        BloomBlock.ofRun (runAt b.capacity addresses i) := by
  generalize hn : addresses.length = n
  induction n using Nat.strongRecOn generalizing b addresses with
  | ind n ih =>
    by_cases hne : addresses = []
    · subst hne
      subst hn
      rw [List.length_nil, blocksFor_zero]
      simp
    · have hpos : 0 < addresses.length := List.length_pos_iff.mpr hne
      have hrun : addresses.take (max b.capacity 1) ≠ [] := by
        rw [← List.length_pos_iff, List.length_take]
        omega
      have hfirst := (h hne).foldl_run hrun (List.length_take_le _ _)
      have hfull : addresses.drop (max b.capacity 1) ≠ [] → BloomBuilder.Full
          ⟨b.capacity, BloomBlock.ofRun (addresses.take (max b.capacity 1)) :: b.newest⟩ := by
        intro hrest
        rw [← List.length_pos_iff, List.length_drop] at hrest
        refine full_ofRun ?_ b.newest
        rw [List.length_take]
        omega
      have hlength : (addresses.drop (max b.capacity 1)).length = n - max b.capacity 1 := by
        rw [List.length_drop, hn]
      have hrest := ih (n - max b.capacity 1) (by omega) hfull hlength
      have hsplit : addresses.foldl insert b =
          (addresses.drop (max b.capacity 1)).foldl insert
            ⟨b.capacity, BloomBlock.ofRun (addresses.take (max b.capacity 1)) :: b.newest⟩ := by
        rw [← hfirst, ← List.foldl_append, List.take_append_drop]
      rw [hsplit, hrest, blocksFor_eq_succ b.capacity (show 0 < n by omega),
        List.range_succ_eq_map, List.map_cons, List.map_map, List.reverse_cons, List.append_assoc,
        runAt_zero]
      simp only [Function.comp_def, Nat.succ_eq_add_one, runAt_succ, List.singleton_append]

/-- The blocks of a builder are the runs of its insertions. -/
theorem blocks_ofList (capacity : Nat) (addresses : List Address) :
    (ofList capacity addresses).blocks =
      (List.range (blocksFor capacity addresses.length)).map fun i =>
        BloomBlock.ofRun (runAt capacity addresses i) := by
  have hempty : (withCapacity capacity).Full := by
    intro block hblock
    cases hblock
  exact reverse_newest_foldl fun _ => hempty

theorem length_blocks_ofList (capacity : Nat) (addresses : List Address) :
    (ofList capacity addresses).blocks.length = blocksFor capacity addresses.length := by
  rw [blocks_ofList, List.length_map, List.length_range]

/-- A builder covers the addresses whose bits the addresses of one run have between them. -/
theorem covers_ofList_iff (capacity : Nat) (addresses : List Address) (address : Address) :
    (ofList capacity addresses).Covers address ↔
      ∃ i < blocksFor capacity addresses.length, ∀ bit ∈ Bloom.bitsOf address,
        ∃ other ∈ runAt capacity addresses i, bit ∈ Bloom.bitsOf other := by
  have hmem : ∀ block, block ∈ (ofList capacity addresses).newest ↔
      ∃ i < blocksFor capacity addresses.length,
        BloomBlock.ofRun (runAt capacity addresses i) = block := by
    intro block
    rw [← List.mem_reverse, ← blocks, blocks_ofList, List.mem_map]
    simp only [List.mem_range]
  unfold Covers
  constructor
  · rintro ⟨block, hblock, hhas⟩
    obtain ⟨i, hi, rfl⟩ := (hmem block).mp hblock
    exact ⟨i, hi, (BloomBlock.has_ofRun _ address).mp hhas⟩
  · rintro ⟨i, hi, hbits⟩
    exact ⟨_, (hmem _).mpr ⟨i, hi, rfl⟩, (BloomBlock.has_ofRun _ address).mpr hbits⟩

/-! ## Files -/

/-- Unless there are more blocks than the count can tell, the file is opened under every valid name
and has as many blocks as its insertions fill. No test of it fails, and the answer is yes exactly if
the addresses that were inserted into one of the blocks have all bits of the address between them:
so it is yes for each that was inserted, and no for all if none was. -/
theorem isMember_iff_run (capacity : Nat) (addresses : List Address)
    (h : (ofList capacity addresses).blocks.length < 2 ^ 31) {name : String} {range : BlockRange}
    (hn : BlockRange.parse? name = some range) :
    ∃ file, (BloomFile.openNamed (.ofBytes (ofList capacity addresses).build) name).Gives
        (.ok file) ∧
      file.range = range ∧ file.blockCount = blocksFor capacity addresses.length ∧
      (∀ address, ∃ answer, (file.isMember address).Gives (.ok answer) ∧
        (answer = true ↔ ∃ i < file.blockCount, ∀ bit ∈ Bloom.bitsOf address,
          ∃ other ∈ runAt capacity addresses i, bit ∈ Bloom.bitsOf other)) ∧
      (∀ address ∈ addresses, (file.isMember address).Gives (.ok true)) ∧
      (addresses = [] → ∀ address, (file.isMember address).Gives (.ok false)) := by
  have hadmitted := admitted_build h
  have hcount : (BloomFile.ofBytes (ofList capacity addresses).build range).blockCount =
      blocksFor capacity addresses.length := by
    unfold BloomFile.ofBytes
    rw [blockCount_build h, Int.toNat_natCast, length_blocks_ofList]
  refine ⟨_, BloomFile.openNamed_ofBytes hn hadmitted, rfl, hcount, fun address => ?_,
    fun address hmem => ?_, ?_⟩
  · refine ⟨_, BloomFile.isMember_ofBytes hadmitted address, ?_⟩
    rw [holds_build h, covers_ofList_iff, hcount]
  · rw [← (holds_build h address).mpr (covers_ofList capacity hmem)]
    exact BloomFile.isMember_ofBytes hadmitted address
  · rintro rfl address
    have hnone : Bloom.holds (ofList capacity []).build address = false := by
      rw [← Bool.not_eq_true, holds_build h]
      rintro ⟨block, hblock, -⟩
      cases hblock
    rw [← hnone]
    exact BloomFile.isMember_ofBytes hadmitted address

/-- The addresses of a run answer for one that was not inserted, those of two runs do not. -/
theorem isMember_two_runs :
    ∃ file, (BloomFile.openNamed
        (.ofBytes (ofList 2 [.ofNat 1, .ofNat 2, .ofNat 4]).build) "10-19.bloom").Gives
          (.ok file) ∧ file.blockCount = 2 ∧
      (file.isMember (.ofNat 4)).Gives (.ok true) ∧
      (file.isMember (.ofNat 0x100000002)).Gives (.ok true) ∧
      (file.isMember (.ofNat 0x100000004)).Gives (.ok false) := by
  have hname : BlockRange.parse? "10-19.bloom" = some ⟨10, 19⟩ := by decide +kernel
  have hfew : (ofList 2 [.ofNat 1, .ofNat 2, .ofNat 4]).blocks.length < 2 ^ 31 := by
    rw [length_blocks_ofList]
    decide
  obtain ⟨file, hopen, -, hcount, htest, hinserted, -⟩ := isMember_iff_run 2 _ hfew hname
  have htwo : file.blockCount = 2 := hcount
  have hfirst : (file.isMember (.ofNat 0x100000002)).Gives (.ok true) := by
    obtain ⟨answer, hgives, hanswer⟩ := htest (.ofNat 0x100000002)
    rwa [hanswer.mpr ⟨0, by omega, by decide +kernel⟩] at hgives
  have hsecond : (file.isMember (.ofNat 0x100000004)).Gives (.ok false) := by
    obtain ⟨answer, hgives, hanswer⟩ := htest (.ofNat 0x100000004)
    have hno : answer = false := by
      rw [← Bool.not_eq_true, hanswer, htwo]
      decide +kernel
    rwa [hno] at hgives
  exact ⟨file, hopen, htwo, hinserted _ (by simp), hfirst, hsecond⟩

end BloomBuilder

end AppearanceIndex
