import AppearanceIndex.Chunk.File
import AppearanceIndex.Proofs.Word.Checked

/-!
# Lookups in words

The offsets in a chunk file and the lookups in it, with the counts of the header and the records as
words of 32 bits and offsets as words of 64. No sum or product is too large, whatever the counts
are, so that the lookups are those over numbers. The search keeps `low ≤ high`, and with it its
difference, its middle and the position behind the middle are words too.
-/

namespace AppearanceIndex

open Word

/-! ## Offsets -/

namespace ChunkHeader

def addressTableWord (_ : ChunkHeader) : BitVec 64 := BitVec.ofNat 64 width

def appearanceTableStart? (h : ChunkHeader) : Option (BitVec 64) :=
  offset? h.addressTableWord h.addressCount.toBitVec addressRecordWidth

def fileSize? (h : ChunkHeader) : Option (BitVec 64) := do
  let start ← h.appearanceTableStart?
  offset? start h.appearanceCount.toBitVec appearanceWidth

variable (h : ChunkHeader)

theorem toNat_addressTableWord : h.addressTableWord.toNat = h.addressTableStart := rfl

theorem is_appearanceTableStart? : Is h.appearanceTableStart? h.appearanceTableStart := by
  have hcount := h.addressCount.toNat_lt
  refine is_offset? rfl (by decide) ?_
  simp only [appearanceTableStart, addressTableStart, width, addressRecordWidth]
  omega

/-- An offset in the appearance table. -/
theorem is_offset?_appearanceTable {position : BitVec 32} :
    Is (h.appearanceTableStart?.bind fun start => offset? start position appearanceWidth)
      (h.appearanceTableStart + position.toNat * appearanceWidth) := by
  have hcount := h.addressCount.toNat_lt
  have hposition := position.isLt
  refine h.is_appearanceTableStart?.bind fun start hstart =>
    is_offset? (by rw [hstart]) (by decide) ?_
  simp only [appearanceTableStart, addressTableStart, width, addressRecordWidth, appearanceWidth]
  omega

theorem is_fileSize? : Is h.fileSize? h.fileSize := h.is_offset?_appearanceTable

end ChunkHeader

namespace AddressRecord

def spanEnd? (r : AddressRecord) : Option (BitVec 64) :=
  add? (wide r.offset.toBitVec) (wide r.count.toBitVec)

def location? (h : ChunkHeader) (position : BitVec 32) : Option (BitVec 64) :=
  offset? h.addressTableWord position ChunkHeader.addressRecordWidth

def spanStart? (r : AddressRecord) (h : ChunkHeader) : Option (BitVec 64) := do
  let start ← h.appearanceTableStart?
  offset? start r.offset.toBitVec ChunkHeader.appearanceWidth

def spanBytes? (r : AddressRecord) : Option (BitVec 64) :=
  bytes? r.count.toBitVec ChunkHeader.appearanceWidth

variable (r : AddressRecord) (h : ChunkHeader)

theorem is_spanEnd? : Is r.spanEnd? r.spanEnd := by
  have hoffset := r.offset.toNat_lt
  have hcount := r.count.toNat_lt
  refine is_add? (by simp [spanEnd]) ?_
  unfold spanEnd
  omega

theorem is_location? (position : BitVec 32) :
    Is (location? h position) (location h position.toNat) := by
  have hposition := position.isLt
  refine is_offset? rfl (by decide) ?_
  simp only [location, ChunkHeader.addressTableStart, ChunkHeader.width,
    ChunkHeader.addressRecordWidth]
  omega

theorem is_spanStart? : Is (r.spanStart? h) (r.spanStart h) := h.is_offset?_appearanceTable

theorem is_spanBytes? : Is r.spanBytes? r.spanBytes := is_bytes? _ (by decide)

end AddressRecord

/-! ## Search -/

/-- The middle of a stretch of positions. -/
def middle? (low high : BitVec 32) : Option (BitVec 32) := do
  let gap ← sub? high low
  let half ← div? gap 2
  add? low half

theorem is_middle? {low high : BitVec 32} (h : low.toNat ≤ high.toNat) :
    Is (middle? low high) (low.toNat + (high.toNat - low.toNat) / 2) := by
  have hhigh := high.isLt
  have hgap : Is (sub? high low) (high.toNat - low.toNat) := is_sub? (by omega)
  refine hgap.bind fun gap hgap => ?_
  have hhalf : Is (div? gap 2) ((high.toNat - low.toNat) / 2) :=
    is_div? (by rw [hgap]; rfl) (by decide)
  exact hhalf.bind fun half hhalf => is_add? (by rw [hhalf]) (by omega)

def lowerBound? {m : Type → Type} [Monad m] (atOrAfter : BitVec 32 → OptionT m Bool)
    (low high : BitVec 32) : OptionT m (BitVec 32) :=
  if _h : low < high then
    match _hmiddle : middle? low high with
    | none => OptionT.fail
    | some middle => do
      if ← atOrAfter middle then lowerBound? atOrAfter low middle
      else
        match _hnext : add? middle 1 with
        | none => OptionT.fail
        | some next => lowerBound? atOrAfter next high
  else
    pure low
termination_by high.toNat - low.toNat
decreasing_by
  all_goals
    rw [BitVec.lt_def] at _h
    have hmiddle := is_middle? (Nat.le_of_lt _h)
    rw [_hmiddle] at hmiddle
    have hmiddle : middle.toNat = _ := Option.some.inj hmiddle
  · omega
  · have hnext : Is (add? middle 1) (middle.toNat + 1) := is_add? rfl (by omega)
    rw [_hnext] at hnext
    have hnext : next.toNat = _ := Option.some.inj hnext
    omega

variable {m : Type → Type} [Monad m] [LawfulMonad m] {α : Type}

/-- The search is the one over numbers, if what it asks and what comes after it are. -/
theorem lowerBound?_bind {probe : BitVec 32 → OptionT m Bool} {probes : Nat → m Bool}
    (hprobe : ∀ position, probe position = liftM (probes position.toNat))
    {rest : BitVec 32 → OptionT m α} {rests : Nat → m α}
    (hrest : ∀ position, rest position = liftM (rests position.toNat)) (low high : BitVec 32) :
    (lowerBound? probe low high >>= rest) =
      liftM (lowerBound probes low.toNat high.toNat >>= rests) := by
  induction hn : high.toNat - low.toNat using Nat.strongRecOn generalizing low high with
  | ind n ih =>
    unfold lowerBound? lowerBound
    by_cases hlt : low < high
    · have hlt' : low.toNat < high.toNat := BitVec.lt_def.mp hlt
      have hhigh := high.isLt
      obtain ⟨middle, hmiddle?, hmiddle⟩ := is_iff.mp (is_middle? (Nat.le_of_lt hlt'))
      have hnext : Is (add? middle 1) (middle.toNat + 1) := is_add? rfl (by omega)
      obtain ⟨next, hnext?, hnext⟩ := is_iff.mp hnext
      rw [dif_pos hlt, dif_pos hlt', ← hmiddle]
      split
      · next hnone =>
        rw [hmiddle?] at hnone
        cases hnone
      · next found hfound =>
        rw [hmiddle?, Option.some.injEq] at hfound
        subst hfound
        rw [bind_assoc, bind_assoc, hprobe, liftM_bind]
        refine bind_congr fun answer => ?_
        cases answer with
        | true => exact ih _ (by omega) low middle rfl
        | false =>
          simp only [Bool.false_eq_true, if_false]
          split
          · next hnone =>
            rw [hnext?] at hnone
            cases hnone
          · next found hfound =>
            rw [hnext?, Option.some.injEq] at hfound
            subst hfound
            rw [← hnext]
            exact ih _ (by omega) next high rfl
    · have hlt' : ¬ low.toNat < high.toNat := fun h => hlt (BitVec.lt_def.mpr h)
      rw [dif_neg hlt, dif_neg hlt', pure_bind, pure_bind, hrest]

/-! ## Lookups -/

namespace ChunkFile

def addressRecordAt? (chunk : ChunkFile) (position : BitVec 32) : OptionT Reading AddressRecord :=
  if chunk.header.addressCount.toBitVec ≤ position then
    liftM (throw (.malformed .chunk chunk.range (.positionOutside position.toNat
      chunk.header.addressCount.toNat)) : Reading AddressRecord)
  else do
    let location ← checked (number? (AddressRecord.location? chunk.header position))
    liftM (chunk.source.seekTo .seekAddressRecord location)
    let bs ← liftM (chunk.source.readNext .readAddressRecord ChunkHeader.addressRecordWidth)
    return AddressRecord.ofBytes bs

def reaches? (chunk : ChunkFile) (target : Address) (position : BitVec 32) :
    OptionT Reading Bool := do
  let record ← chunk.addressRecordAt? position
  return decide (target ≤ record.address)

def findAddress? (chunk : ChunkFile) (target : Address) :
    OptionT Reading (Option AddressRecord) := do
  let position ← lowerBound? (chunk.reaches? target) 0 chunk.header.addressCount.toBitVec
  if position = chunk.header.addressCount.toBitVec then
    return none
  let record ← chunk.addressRecordAt? position
  return if record.address = target then some record else none

def readAppearances? (chunk : ChunkFile) (record : AddressRecord) :
    OptionT Reading (List Appearance) := do
  let stop ← checked (number? record.spanEnd?)
  if stop ≤ chunk.header.appearanceCount.toNat then
    let start ← checked (number? (record.spanStart? chunk.header))
    liftM (chunk.source.seekTo .seekAppearances start)
    let count ← checked (number? record.spanBytes?)
    let bs ← liftM (chunk.source.readNext .readAppearances count)
    return Appearance.decodeAll bs
  else
    liftM (throw (record.spanError chunk.header chunk.range) : Reading (List Appearance))

variable (chunk : ChunkFile)

theorem addressRecordAt?_eq (position : BitVec 32) :
    chunk.addressRecordAt? position = liftM (chunk.addressRecordAt position.toNat) := by
  have hlocation := AddressRecord.is_location? chunk.header position
  unfold addressRecordAt? addressRecordAt
  simp only [BitVec.le_def, UInt32.toNat_toBitVec]
  split
  · rfl
  · rw [hlocation, checked_some, pure_bind]
    simp only [liftM_bind, liftM_pure]

theorem reaches?_eq (target : Address) (position : BitVec 32) :
    chunk.reaches? target position = liftM (chunk.reaches target position.toNat) := by
  unfold reaches? reaches
  rw [addressRecordAt?_eq, liftM_bind]
  simp only [liftM_pure]

theorem findAddress?_eq (target : Address) :
    chunk.findAddress? target = liftM (chunk.findAddress target) := by
  rw [findAddress_eq]
  refine lowerBound?_bind (chunk.reaches?_eq target) (fun position => ?_) _ _
  simp only [addressRecordAt?_eq, ← BitVec.toNat_inj, UInt32.toNat_toBitVec]
  split
  · rfl
  · rw [liftM_bind]
    simp only [liftM_pure]

theorem readAppearances?_eq (record : AddressRecord) :
    chunk.readAppearances? record = liftM (chunk.readAppearances record) := by
  have hstop := record.is_spanEnd?
  have hstart := record.is_spanStart? chunk.header
  have hbytes : number? record.spanBytes? = some record.spanBytes := record.is_spanBytes?
  unfold readAppearances? readAppearances
  rw [hstop, checked_some, pure_bind]
  by_cases hfits : record.Fits chunk.header
  · have hle : record.spanEnd ≤ chunk.header.appearanceCount.toNat := hfits
    rw [if_pos hle, if_neg (not_not_intro hfits), hstart, checked_some, pure_bind]
    simp only [hbytes, checked_some, pure_bind, liftM_bind, liftM_pure]
  · have hlt : ¬ record.spanEnd ≤ chunk.header.appearanceCount.toNat := hfits
    rw [if_neg hlt, if_pos hfits]
    rfl

end ChunkFile

end AppearanceIndex
