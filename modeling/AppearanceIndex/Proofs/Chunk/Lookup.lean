import AppearanceIndex.Chunk.File
import AppearanceIndex.Proofs.Chunk.Tables
import AppearanceIndex.Proofs.Source.Reading

/-!
# Looking up an address

An admitted chunk in memory gives every record of its table and the span of every record that fits,
wherever the cursor is, and when the table is in ascending order the search of it meets an address
exactly if the table holds it.
-/

namespace AppearanceIndex

/-! ## Records and spans -/

namespace ChunkFile

def ofBytes (bs : Bytes) (range : BlockRange) : ChunkFile :=
  ⟨.ofBytes bs, range, Chunk.header bs⟩

variable {bs : Bytes} {range : BlockRange}

theorem openNamed_ofBytes {name : String} (hn : BlockRange.parse? name = some range)
    (h : Chunk.Admitted bs) : (openNamed (.ofBytes bs) name).Gives (.ok (ofBytes bs range)) := by
  have hrange : BlockRange.ofName name = .ok range := BlockRange.ofName_eq_ok.mpr hn
  have hheader : ChunkHeader.ofBytes ((bs.drop 0).take ChunkHeader.width) = Chunk.header bs :=
    ChunkHeader.ofBytes_take (Nat.le_refl _)
  unfold openNamed
  rw [hrange]
  refine (Reading.gives_lift _).bind ?_
  refine SeekableSource.gives_seekTo_readWith_bind (by simpa using h.1) _ _ ?_
  refine (SeekableSource.gives_seekEnd _).bind ?_
  rw [hheader, h.validate range]
  exact (Reading.gives_lift _).bind (Reading.gives_pure _)

theorem addressRecordAt_ofBytes (h : Chunk.Admitted bs) {position : Nat} {record : AddressRecord}
    (hp : (Chunk.addressTable bs)[position]? = some record) :
    ((ofBytes bs range).addressRecordAt position).Gives (.ok record) := by
  obtain ⟨hlt, hrecord⟩ := List.getElem?_eq_some_iff.mp hp
  rw [h.length_addressTable] at hlt
  have hle : AddressRecord.location (Chunk.header bs) position + ChunkHeader.addressRecordWidth
      ≤ bs.length := by
    have hle := h.location_le (show position + 1 ≤ _ from hlt)
    rwa [Nat.one_mul] at hle
  have hdecoded : AddressRecord.ofBytes
      ((bs.drop (AddressRecord.location (Chunk.header bs) position)).take
        ChunkHeader.addressRecordWidth) = record := by
    have hslice := Chunk.decodeAll_location (show position + 1 ≤ _ from hlt)
    rw [Nat.one_mul, AddressRecord.decodeAll_single
      (by rw [List.length_take, List.length_drop]; omega)] at hslice
    rw [List.take_one, List.head?_drop, hp] at hslice
    simpa using hslice
  unfold addressRecordAt
  rw [if_neg (show ¬ (ofBytes bs range).header.addressCount.toNat ≤ position from
    Nat.not_le_of_lt hlt)]
  refine SeekableSource.gives_seekTo_readWith_bind hle _ _ ?_
  rw [hdecoded]
  exact Reading.gives_pure record

theorem readAppearances_ofBytes (h : Chunk.Admitted bs) {record : AddressRecord}
    (hf : record.Fits (Chunk.header bs)) :
    ((ofBytes bs range).readAppearances record).Gives (.ok (Chunk.spanOf bs record)) := by
  unfold readAppearances
  rw [if_neg (fun hn => hn hf)]
  refine SeekableSource.gives_seekTo_readWith_bind (h.span_le hf) _ _ ?_
  rw [Chunk.decodeAll_span hf]
  exact Reading.gives_pure _

theorem readAppearances_of_not_fits {record : AddressRecord}
    (hf : ¬ record.Fits (Chunk.header bs)) :
    ((ofBytes bs range).readAppearances record).Gives
      (.error (record.spanError (Chunk.header bs) range)) := by
  unfold readAppearances
  rw [if_pos (show ¬ record.Fits (ofBytes bs range).header from hf)]
  exact (Reading.gives_throw _).bind_error

end ChunkFile

/-! ## The search -/

/-- A search among positions that are read without failure narrows down to the first at which the
answer is yes, if the answers turn from no to yes at most once. -/
theorem gives_lowerBound {probe : Nat → Reading Bool} {answer : Nat → Bool} {low high : Nat}
    (hprobe : ∀ p, p < high → (probe p).Gives (.ok (answer p)))
    (hmono : ∀ p q, p ≤ q → q < high → answer p = true → answer q = true) (hle : low ≤ high) :
    ∃ r, (lowerBound probe low high).Gives (.ok r) ∧ low ≤ r ∧ r ≤ high ∧
      (∀ p, low ≤ p → p < r → answer p = false) ∧ (∀ p, r ≤ p → p < high → answer p = true) := by
  generalize hn : high - low = n
  induction n using Nat.strongRecOn generalizing low high with
  | ind n ih =>
    unfold lowerBound
    by_cases h : low < high
    · rw [dif_pos h]
      have hmiddle : low + (high - low) / 2 < high := by omega
      cases ha : answer (low + (high - low) / 2) with
      | true =>
        obtain ⟨r, hr, hlow, hhigh, hno, hyes⟩ := ih (low + (high - low) / 2 - low) (by omega)
          (fun p hp => hprobe p (by omega)) (fun p q hpq hq => hmono p q hpq (by omega))
          (Nat.le_add_right low _) rfl
        refine ⟨r, (hprobe _ hmiddle).bind (by rw [if_pos ha]; exact hr), hlow, by omega, hno, ?_⟩
        intro p hp hlt
        by_cases hpm : p < low + (high - low) / 2
        · exact hyes p hp hpm
        · exact hmono _ p (by omega) hlt ha
      | false =>
        obtain ⟨r, hr, hlow, hhigh, hno, hyes⟩ := ih (high - (low + (high - low) / 2 + 1))
          (by omega) hprobe hmono (show low + (high - low) / 2 + 1 ≤ high from hmiddle) rfl
        refine ⟨r, (hprobe _ hmiddle).bind (by rw [ha, if_neg (by decide)]; exact hr), by omega,
          hhigh, ?_, hyes⟩
        intro p hp hlt
        by_cases hpm : low + (high - low) / 2 < p
        · exact hno p hpm hlt
        · cases hap : answer p with
          | false => rfl
          | true =>
            have hcontra := hmono p (low + (high - low) / 2) (by omega) hmiddle hap
            rw [ha] at hcontra
            cases hcontra
    · rw [dif_neg h]
      exact ⟨low, Reading.gives_pure low, Nat.le_refl _, hle, fun p h1 h2 => by omega,
        fun p h1 h2 => by omega⟩

/-- In a table in ascending order, the first record of an address stands where the addresses reach
it, if anywhere. -/
theorem Chunk.find?_of_bound {records : List AddressRecord} {target : Address} {r : Nat}
    (hs : records.Pairwise (·.address ≤ ·.address))
    (hbefore : ∀ j (hj : j < records.length), j < r → records[j].address ≠ target)
    (hbound : ∀ hr : r < records.length, target ≤ records[r].address) :
    records.find? (·.address = target) = records[r]?.filter (·.address = target) := by
  by_cases hr : r < records.length
  · rw [List.getElem?_eq_getElem hr]
    by_cases heq : records[r].address = target
    · rw [Option.filter_some_pos (by simpa using heq), List.find?_eq_some_iff_getElem]
      refine ⟨by simpa using heq, r, hr, rfl, ?_⟩
      intro j hj
      simpa using hbefore j (by omega) hj
    · rw [Option.filter_some_neg (by simpa using heq), List.find?_eq_none]
      intro record hmem
      obtain ⟨j, hj, rfl⟩ := List.getElem_of_mem hmem
      rcases Nat.lt_trichotomy j r with hlt | rfl | hgt
      · simpa using hbefore j hj hlt
      · simpa using heq
      · intro hj'
        have hlater := List.pairwise_iff_getElem.mp hs r j hr hj hgt
        rw [of_decide_eq_true hj'] at hlater
        exact heq (Address.eq_of_toNat (Nat.le_antisymm hlater (hbound hr)))
  · rw [List.getElem?_eq_none (Nat.le_of_not_lt hr), Option.filter_none, List.find?_eq_none]
    intro record hmem
    obtain ⟨j, hj, rfl⟩ := List.getElem_of_mem hmem
    simpa using hbefore j hj (by omega)

namespace ChunkFile

variable {bs : Bytes} {range : BlockRange}

theorem reaches_ofBytes (h : Chunk.Admitted bs) (target : Address) {position : Nat}
    (hp : position < (Chunk.header bs).addressCount.toNat) :
    ((ofBytes bs range).reaches target position).Gives
      (.ok ((Chunk.addressTable bs)[position]?.any (target ≤ ·.address))) := by
  rw [← h.length_addressTable] at hp
  have hrecord := List.getElem?_eq_getElem hp
  unfold reaches
  refine (addressRecordAt_ofBytes h hrecord).bind ?_
  rw [hrecord]
  exact Reading.gives_pure _

/-- In a table in ascending order, once the addresses have reached the target they stay there. -/
theorem reached_mono {records : List AddressRecord}
    (hs : records.Pairwise (·.address ≤ ·.address)) (target : Address) {p q : Nat} (hpq : p ≤ q)
    (hq : q < records.length) (hp : records[p]?.any (target ≤ ·.address) = true) :
    records[q]?.any (target ≤ ·.address) = true := by
  have hp' : p < records.length := by omega
  rw [List.getElem?_eq_getElem hp', Option.any_some, decide_eq_true_eq] at hp
  rw [List.getElem?_eq_getElem hq, Option.any_some, decide_eq_true_eq]
  rcases Nat.eq_or_lt_of_le hpq with rfl | hlt
  · exact hp
  · exact Nat.le_trans hp (List.pairwise_iff_getElem.mp hs p q hp' hq hlt)

/-- In a table in ascending order, the search meets the first record of the address. -/
theorem findAddress_ofBytes (h : Chunk.Admitted bs)
    (hs : (Chunk.addressTable bs).Pairwise (·.address ≤ ·.address)) (target : Address) :
    ((ofBytes bs range).findAddress target).Gives
      (.ok ((Chunk.addressTable bs).find? (·.address = target))) := by
  have hlen := h.length_addressTable
  have hprobe : ∀ p, p < (Chunk.header bs).addressCount.toNat →
      ((ofBytes bs range).reaches target p).Gives
        (.ok ((Chunk.addressTable bs)[p]?.any (target ≤ ·.address))) :=
    fun p hp => reaches_ofBytes h target hp
  obtain ⟨r, hr, -, hle, hno, hyes⟩ := gives_lowerBound hprobe
    (fun p q hpq hq => reached_mono hs target hpq (by omega)) (Nat.zero_le _)
  have hbefore : ∀ j (hj : j < (Chunk.addressTable bs).length), j < r →
      (Chunk.addressTable bs)[j].address ≠ target := by
    intro j hj hjr heq
    have hany := hno j (Nat.zero_le _) hjr
    rw [List.getElem?_eq_getElem hj, Option.any_some, decide_eq_false_iff_not] at hany
    exact hany (heq ▸ Nat.le_refl _)
  have hbound : ∀ hr : r < (Chunk.addressTable bs).length,
      target ≤ (Chunk.addressTable bs)[r].address := by
    intro hr
    have hany := hyes r (Nat.le_refl _) (by omega)
    rwa [List.getElem?_eq_getElem hr, Option.any_some, decide_eq_true_eq] at hany
  rw [Chunk.find?_of_bound hs hbefore hbound]
  rw [findAddress_eq]
  refine hr.bind ?_
  by_cases hend : r = (Chunk.header bs).addressCount.toNat
  · have hnone : (Chunk.addressTable bs)[r]? = none := List.getElem?_eq_none (by omega)
    rw [if_pos (show r = (ofBytes bs range).header.addressCount.toNat from hend), hnone]
    exact Reading.gives_pure none
  · have hrecord := List.getElem?_eq_getElem (show r < (Chunk.addressTable bs).length by omega)
    rw [if_neg (show ¬ r = (ofBytes bs range).header.addressCount.toNat from hend)]
    refine (addressRecordAt_ofBytes h hrecord).bind ?_
    rw [hrecord]
    by_cases heq : (Chunk.addressTable bs)[r].address = target
    · rw [if_pos heq, Option.filter_some_pos (by simpa using heq)]
      exact Reading.gives_pure _
    · rw [if_neg heq, Option.filter_some_neg (by simpa using heq)]
      exact Reading.gives_pure none

end ChunkFile

/-! ## All appearances of an address -/

/-- Where addresses ascend, the appearances of an address, picked out of all, are those of the item
that is found. -/
theorem filter_spans {α : Type} {key : α → Address} {span : α → List Appearance} {items : List α}
    (h : items.Pairwise (key · < key ·)) (target : Address) :
    ((items.flatMap fun item => (span item).map (DecodedAppearance.mk (key item))).filter
        (·.address = target)).map (·.appearance) =
      ((items.find? (key · = target)).map span).getD [] := by
  induction items with
  | nil => rfl
  | cons item items ih =>
    rw [List.pairwise_cons] at h
    rw [List.flatMap_cons, List.filter_append, List.map_append, ih h.2, List.find?_cons,
      List.filter_map]
    by_cases hkey : key item = target
    · have hnone : items.find? (key · = target) = none := by
        rw [List.find?_eq_none]
        intro other hmem heq
        exact Address.ne_of_lt (h.1 other hmem) (hkey.trans (of_decide_eq_true heq).symm)
      simp [Function.comp_def, hkey, hnone]
    · simp [Function.comp_def, hkey]

theorem Chunk.filter_decoded (bs : Bytes) (target : Address) {records : List AddressRecord}
    (hs : records.Pairwise (·.address < ·.address)) :
    ((records.flatMap (decodedSpan bs)).filter (·.address = target)).map (·.appearance) =
      ((records.find? (·.address = target)).map (spanOf bs)).getD [] :=
  filter_spans hs target

/-- A chunk whose addresses ascend and whose spans all fit gives what it decodes to. -/
theorem ChunkFile.getAppearances_ofBytes {bs : Bytes} {range : BlockRange} (h : Chunk.Admitted bs)
    (hs : (Chunk.addressTable bs).Pairwise (·.address < ·.address))
    (hf : ∀ record ∈ Chunk.addressTable bs, record.Fits (Chunk.header bs)) (target : Address) :
    ((ofBytes bs range).getAppearances target).Gives
      (.ok (((Chunk.decoded bs).filter (·.address = target)).map (·.appearance))) := by
  have hle : (Chunk.addressTable bs).Pairwise (·.address ≤ ·.address) :=
    hs.imp fun hlt => Nat.le_of_lt hlt
  unfold getAppearances
  refine (findAddress_ofBytes h hle target).bind ?_
  rw [Chunk.decoded, Chunk.filter_decoded bs target hs]
  cases hfound : (Chunk.addressTable bs).find? (·.address = target) with
  | none => exact Reading.gives_pure _
  | some record =>
    have hread : ((ofBytes bs range).readAppearances record).Gives
        (.ok (Chunk.spanOf bs record)) :=
      readAppearances_ofBytes h (hf record (List.mem_of_find?_eq_some hfound))
    rw [Option.map_some, Option.getD_some]
    exact hread

end AppearanceIndex
