import AppearanceIndex.Proofs.Chunk.Opened
import AppearanceIndex.Proofs.Decode.Sources
import AppearanceIndex.Proofs.Source.Session

/-!
# Bytes that no reader looks at

Nobody verifies the digest of a chunk, and nobody looks behind its tables. Two files with the same
magic number and the same tables (`Chunk.Alike`) are the same to their readers, even if everything
else in them differs: one is opened exactly if the other is, every lookup has the same answer or
error in both, and they are decoded in step.

`Reading.Related` is what the two runs of a reader have in common. It is kept by everything that
readings are put together from, so each lookup is taken apart once and the rest follows.
-/

namespace AppearanceIndex

/-! ## Two readings -/

namespace Reading

variable {α α' β β' : Type}

/-- Wherever their cursors are, both readings fail with one error, or both succeed with related
results. -/
inductive Related (r : α → α' → Prop) (reading : Reading α) (other : Reading α') : Prop where
  | failed (e : Error) (h : reading.Gives (.error e)) (h' : other.Gives (.error e))
  | gave (a : α) (a' : α') (h : reading.Gives (.ok a)) (h' : other.Gives (.ok a')) (hr : r a a')

variable {r : α → α' → Prop} {q : β → β' → Prop} {reading : Reading α} {other : Reading α'}
  {f : α → Reading β} {g : α' → Reading β'}

theorem Related.bind (h : reading.Related r other) (hf : ∀ a a', r a a' → (f a).Related q (g a')) :
    (reading >>= f).Related q (other >>= g) := by
  cases h with
  | failed e h h' => exact .failed e h.bind_error h'.bind_error
  | gave a a' h h' hr =>
    cases hf a a' hr with
    | failed e hlater hlater' => exact .failed e (h.bind hlater) (h'.bind hlater')
    | gave b b' hlater hlater' hq => exact .gave b b' (h.bind hlater) (h'.bind hlater') hq

/-- Readings that give the same. -/
theorem related_of_gives {reading other : Reading α} {result : Except Error α}
    (h : reading.Gives result) (h' : other.Gives result) : reading.Related Eq other := by
  cases result with
  | error e => exact .failed e h h'
  | ok a => exact .gave a a h h' rfl

end Reading

/-- A lookup gives the same wherever the records it asks for are the same. -/
theorem Lookup.related_run {α : Type} {recordAt other : Nat → Reading AddressRecord}
    (h : ∀ position, (recordAt position).Related Eq (other position)) (lookup : Lookup α) :
    (lookup.run recordAt).Related Eq (lookup.run other) := by
  induction lookup with
  | done a => exact Reading.related_of_gives (Reading.gives_pure a) (Reading.gives_pure a)
  | ask position next ih =>
    refine (h position).bind ?_
    rintro record _ rfl
    exact ih record

/-! ## Lookups -/

namespace ChunkFile

variable {bs other : Bytes}

section Alike

variable (h : Chunk.Alike bs other) (ha : Chunk.Admitted bs) (range : BlockRange)
include h ha

theorem related_addressRecordAt (position : Nat) :
    ((ofBytes bs range).addressRecordAt position).Related Eq
      ((ofBytes other range).addressRecordAt position) := by
  by_cases hp : position < (Chunk.header bs).addressCount.toNat
  · have hread : ∃ record, (Chunk.addressTable bs)[position]? = some record ∧
        ((ofBytes bs range).addressRecordAt position).Gives (.ok record) := exists_record ha hp
    obtain ⟨record, hrecord, hread⟩ := hread
    have hrecord' : (Chunk.addressTable other)[position]? = some record := by
      rwa [h.addressTable_eq]
    exact Reading.related_of_gives hread (addressRecordAt_ofBytes (h.admitted ha) hrecord')
  · have hle := Nat.le_of_not_lt hp
    have hle' : (Chunk.header other).addressCount.toNat ≤ position := by
      rwa [h.lengths.addressCount]
    refine Reading.related_of_gives (addressRecordAt_of_le hle) ?_
    rw [← h.lengths.addressCount]
    exact addressRecordAt_of_le hle'

theorem related_readAppearances (record : AddressRecord) :
    ((ofBytes bs range).readAppearances record).Related Eq
      ((ofBytes other range).readAppearances record) := by
  have hfits := h.lengths.fits_iff record
  by_cases hf : record.Fits (Chunk.header bs)
  · refine Reading.related_of_gives (readAppearances_ofBytes ha hf) ?_
    rw [← h.spanOf_eq]
    exact readAppearances_ofBytes (h.admitted ha) (hfits.mpr hf)
  · refine Reading.related_of_gives (readAppearances_of_not_fits hf) ?_
    rw [← h.lengths.spanError_eq]
    exact readAppearances_of_not_fits (mt hfits.mp hf)

theorem related_findAddress (target : Address) :
    ((ofBytes bs range).findAddress target).Related Eq
      ((ofBytes other range).findAddress target) := by
  have hcount : (ofBytes other range).header.addressCount =
      (ofBytes bs range).header.addressCount := h.lengths.addressCount
  -- both searches are one lookup, carried out with the records of either file
  unfold findAddress
  rw [hcount]
  exact Lookup.related_run (related_addressRecordAt h ha range) _

theorem related_getAppearances (target : Address) :
    ((ofBytes bs range).getAppearances target).Related Eq
      ((ofBytes other range).getAppearances target) := by
  unfold getAppearances
  refine (related_findAddress h ha range target).bind ?_
  rintro found _ rfl
  cases found with
  | some record => exact related_readAppearances h ha range record
  | none => exact Reading.related_of_gives (Reading.gives_pure []) (Reading.gives_pure [])

/-- Every query has the same answer in both files, or fails with the same error. -/
theorem related_ask (query : Query) :
    ((ofBytes bs range).ask query).Related Eq ((ofBytes other range).ask query) := by
  cases query with
  | record position => exact related_addressRecordAt h ha range position
  | search target => exact related_findAddress h ha range target
  | span record => exact related_readAppearances h ha range record
  | appearances target => exact related_getAppearances h ha range target

end Alike

/-- The files stand for the same range and answer every query alike. -/
structure AnswersAs (file other : ChunkFile) : Prop where
  range : other.range = file.range
  header : file.header.Alike other.header
  ask : ∀ query, (file.ask query).Related Eq (other.ask query)

theorem related_openNamed (h : Chunk.Alike bs other) (name : String) :
    (openNamed (.ofBytes bs) name).Related AnswersAs (openNamed (.ofBytes other) name) := by
  have hopen := openNamed_gives_verdict bs name
  have hother := openNamed_gives_verdict other name
  rw [h.verdict_eq] at hother
  cases hv : Chunk.verdict bs name with
  | error e =>
    rw [hv] at hopen hother
    exact .failed e hopen hother
  | ok admitted =>
    obtain ⟨range, header⟩ := admitted
    obtain ⟨-, ha, hheader⟩ := Chunk.eq_of_verdict_ok hv
    cases hheader
    rw [hv] at hopen hother
    exact .gave _ _ hopen hother ⟨rfl, h.lengths, related_ask h ha range⟩

end ChunkFile

/-! ## Both readers -/

namespace Chunk

variable {bs other : Bytes}

/-- The digest of a chunk and the bytes behind its tables never matter. For lookups, both files fail
to open with one error, or both open and then every query, with whatever arguments, has the same
answer or the same error. A decode of the one, from whatever kind of source, begins as the other's
and then keeps in step with it. -/
theorem related_of_alike (h : Alike bs other) (name : String) :
    (ChunkFile.openNamed (.ofBytes bs) name).Related ChunkFile.AnswersAs
        (ChunkFile.openNamed (.ofBytes other) name) ∧
      ∀ source source' : PositionalSource, source.Holds bs → source'.Holds other →
        ∀ maxWorkers capacity : Positive,
          DecodeStart.Related (fun s s' => s'.chunk.range = s.chunk.range ∧
              s.chunk.header.Alike s'.chunk.header ∧ s.InStep s')
            (DecodeStart.ofSource source name maxWorkers capacity)
            (DecodeStart.ofSource source' name maxWorkers capacity) := by
  refine ⟨ChunkFile.related_openNamed h name, fun source source' hs hs' maxWorkers capacity => ?_⟩
  refine DecodeStart.related_of_verdict hs.toShows hs'.toShows (h.verdict_eq name) ?_
  intro range ha
  have halike := OpenChunk.alike_of_holds h ha hs hs' range
  exact ⟨rfl, h.lengths, DecodeStream.inStep_of_alike halike maxWorkers capacity⟩

/-- A chunk of two addresses, one of them with a span outside the table, under any digest and with
any bytes behind. -/
def sealedBytes (digest : UInt8) (behind : Bytes) : Bytes :=
  let records : List AddressRecord := [⟨.ofNat 1, 0, 2⟩, ⟨.ofNat 4, 1, 7⟩]
  let apps : List Appearance := [⟨10, 0⟩, ⟨12, 5⟩]
  ChunkHeader.toBytes ⟨ChunkHeader.chunkMagic, Vector.replicate 32 digest, 2, 2⟩ ++
    records.flatMap AddressRecord.toBytes ++ apps.flatMap Appearance.toBytes ++ behind

theorem related_of_resealed :
    (Alike (sealedBytes 0 []) (sealedBytes 255 [7, 7, 7]) ∧
      sealedBytes 0 [] ≠ sealedBytes 255 [7, 7, 7]) ∧
      (ChunkFile.openNamed (.ofBytes (sealedBytes 0 [])) "10-19.bin").Related ChunkFile.AnswersAs
        (ChunkFile.openNamed (.ofBytes (sealedBytes 255 [7, 7, 7])) "10-19.bin") ∧
      DecodeStart.Related (fun s s' => s'.chunk.range = s.chunk.range ∧
          s.chunk.header.Alike s'.chunk.header ∧ s.InStep s')
        (DecodeStart.ofSource (.ofBytes (sealedBytes 0 [])) "10-19.bin" ⟨2, by decide⟩
          ⟨1, by decide⟩)
        (DecodeStart.ofSource (.ofFile (sealedBytes 255 [7, 7, 7])) "10-19.bin" ⟨2, by decide⟩
          ⟨1, by decide⟩) := by
  have halike : Alike (sealedBytes 0 []) (sealedBytes 255 [7, 7, 7]) := by
    refine ⟨?_, ⟨?_, ?_⟩, ?_, ?_, ?_⟩ <;> decide +kernel
  have hdiffer : sealedBytes 0 [] ≠ sealedBytes 255 [7, 7, 7] := by decide +kernel
  obtain ⟨hlookups, hdecodes⟩ := related_of_alike halike "10-19.bin"
  have hmemory := PositionalSource.holds_ofBytes (sealedBytes 0 [])
  have hfile := PositionalSource.holds_ofFile (sealedBytes 255 [7, 7, 7])
  exact ⟨⟨halike, hdiffer⟩, hlookups,
    hdecodes _ _ hmemory hfile ⟨2, by decide⟩ ⟨1, by decide⟩⟩

end Chunk

end AppearanceIndex
