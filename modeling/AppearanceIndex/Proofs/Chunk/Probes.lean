import Mathlib.Algebra.Group.Nat.Defs
import AppearanceIndex.Chunk.File
import AppearanceIndex.Proofs.Source.Reading

/-!
# What a search asks for

`Lookup.Path` is a way through a lookup, answer by answer; the answers may be any records or errors
at all. Carrying a lookup out is going one of its ways. Nothing is assumed of the order of the
table: what bounds the ways through a search is that each probe halves the window of positions.
-/

namespace AppearanceIndex

/-- A position that was asked for, and what the answer was. -/
structure Probe where
  position : Nat
  answer : Except Error AddressRecord

namespace Lookup

variable {α β : Type} {recordAt : Nat → Reading AddressRecord} {lookup : Lookup α}
  {probes : List Probe}

theorem lowerBound_of_lt {target : Address} {low high : Nat} (h : low < high) :
    lowerBound (reaches target) low high = ask (low + (high - low) / 2) fun found =>
      if target ≤ found.address then lowerBound (reaches target) low (low + (high - low) / 2)
      else lowerBound (reaches target) (low + (high - low) / 2 + 1) high := by
  rw [lowerBound, dif_pos h]
  show ask _ (fun found => if decide (target ≤ found.address) = true then _ else _) = _
  simp only [decide_eq_true_eq]

theorem lowerBound_of_not_lt {target : Address} {low high : Nat} (h : ¬ low < high) :
    lowerBound (reaches target) low high = done low := by
  rw [lowerBound, dif_neg h]
  rfl

/-! ## Ways through a lookup -/

/-- The probes of a lookup, whatever the answers are, and what comes of them. An error that is
answered ends the lookup. -/
inductive Path : Lookup α → List Probe → Except Error α → Prop where
  | done (a : α) : Path (done a) [] (.ok a)
  | answered {position : Nat} {next : AddressRecord → Lookup α} {found : AddressRecord}
      {probes : List Probe} {result : Except Error α} (h : Path (next found) probes result) :
      Path (ask position next) (⟨position, .ok found⟩ :: probes) result
  | failed {position : Nat} {next : AddressRecord → Lookup α} (e : Error) :
      Path (ask position next) [⟨position, .error e⟩] (.error e)

theorem Path.of_done {a : α} {result : Except Error α} (h : (Lookup.done a).Path probes result) :
    probes = [] ∧ result = .ok a := by
  cases h
  exact ⟨rfl, rfl⟩

theorem Path.of_ask {position : Nat} {next : AddressRecord → Lookup α} {result : Except Error α}
    (h : (ask position next).Path probes result) :
    (∃ found rest, probes = ⟨position, .ok found⟩ :: rest ∧ (next found).Path rest result) ∨
      ∃ e, probes = [⟨position, .error e⟩] ∧ result = .error e := by
  cases h with
  | answered h => exact .inl ⟨_, _, rfl, h⟩
  | failed e => exact .inr ⟨e, rfl, rfl⟩

/-- Only an answer can be an error. -/
theorem Path.mem_of_error {e : Error} (h : lookup.Path probes (.error e)) :
    ∃ probe ∈ probes, probe.answer = .error e := by
  generalize hresult : Except.error e = result at h
  induction h with
  | done => cases hresult
  | answered _ ih =>
    obtain ⟨probe, hmem, hanswer⟩ := ih hresult
    exact ⟨probe, List.mem_cons_of_mem _ hmem, hanswer⟩
  | failed e' =>
    cases hresult
    exact ⟨_, List.mem_cons_self, rfl⟩

/-- A way through two lookups ends in the first with an error, or goes on in the second. -/
theorem Path.of_bind {f : α → Lookup β} {result : Except Error β}
    (h : (lookup >>= f).Path probes result) :
    (∃ e, result = .error e ∧ lookup.Path probes (.error e)) ∨
      ∃ a first rest, probes = first ++ rest ∧ lookup.Path first (.ok a) ∧
        (f a).Path rest result := by
  induction lookup generalizing probes with
  | done a => exact .inr ⟨a, [], probes, rfl, .done a, h⟩
  | ask position next ih =>
    change Path (ask position fun record => (next record) >>= f) probes result at h
    cases h with
    | @answered _ _ found probes _ hnext =>
      rcases ih found hnext with ⟨e, rfl, hfirst⟩ | ⟨a, first, rest, rfl, hfirst, hrest⟩
      · exact .inl ⟨e, rfl, .answered hfirst⟩
      · exact .inr ⟨a, _ :: first, rest, rfl, .answered hfirst, hrest⟩
    | failed e => exact .inl ⟨e, rfl, .failed e⟩

/-- Carrying a lookup out is going one of the ways through it, with the answers of the readings. -/
theorem exists_path_of_run (recordAt : Nat → Reading AddressRecord) (lookup : Lookup α)
    (cursor : Nat) :
    ∃ probes, lookup.Path probes ((lookup.run recordAt).run cursor).1 ∧
      ∀ probe ∈ probes, ∃ c, ((recordAt probe.position).run c).1 = probe.answer := by
  induction lookup generalizing cursor with
  | done a => exact ⟨[], .done a, fun _ hmem => nomatch hmem⟩
  | ask position next ih =>
    rw [run, Reading.run_bind]
    cases hread : (recordAt position).run cursor with
    | mk answer moved =>
      have hanswer : ((recordAt position).run cursor).1 = answer := by rw [hread]
      cases answer with
      | ok found =>
        obtain ⟨probes, hpath, hprobes⟩ := ih found moved
        refine ⟨_, .answered hpath, ?_⟩
        exact List.forall_mem_cons.mpr ⟨⟨cursor, hanswer⟩, hprobes⟩
      | error e =>
        refine ⟨_, .failed e, ?_⟩
        exact List.forall_mem_singleton.mpr ⟨cursor, hanswer⟩

/-! ## How far a search goes -/

/-- A window of fewer than `2 ^ k` positions is narrowed down by `k` probes, all inside it. -/
theorem path_lowerBound {target : Address} {low high k : Nat} {result : Except Error Nat}
    (h : (lowerBound (reaches target) low high).Path probes result) (hle : low ≤ high)
    (hk : high - low < 2 ^ k) :
    (∀ probe ∈ probes, low ≤ probe.position ∧ probe.position < high) ∧ probes.length ≤ k ∧
      ∀ position, result = .ok position → position ≤ high := by
  induction k generalizing low high probes with
  | zero =>
    rw [lowerBound_of_not_lt (by omega)] at h
    obtain ⟨rfl, rfl⟩ := h.of_done
    simpa using hle
  | succ k ih =>
    by_cases hlt : low < high
    · rw [lowerBound_of_lt hlt] at h
      rw [Nat.pow_succ] at hk
      have hmiddle : low ≤ low + (high - low) / 2 ∧ low + (high - low) / 2 < high := by omega
      rcases h.of_ask with ⟨found, rest, rfl, hnext⟩ | ⟨e, rfl, rfl⟩
      · split at hnext
        · obtain ⟨hinside, hlength, hresult⟩ := ih hnext (by omega) (by omega)
          refine ⟨List.forall_mem_cons.mpr ⟨hmiddle, fun probe hmem => ?_⟩,
            Nat.succ_le_succ hlength, fun position heq => ?_⟩
          · have hprobe := hinside probe hmem
            omega
          · have hposition := hresult position heq
            omega
        · obtain ⟨hinside, hlength, hresult⟩ := ih hnext (by omega) (by omega)
          refine ⟨List.forall_mem_cons.mpr ⟨hmiddle, fun probe hmem => ?_⟩,
            Nat.succ_le_succ hlength, hresult⟩
          have hprobe := hinside probe hmem
          omega
      · exact ⟨List.forall_mem_singleton.mpr hmiddle, Nat.succ_le_succ k.zero_le,
          fun _ heq => nomatch heq⟩
    · rw [lowerBound_of_not_lt hlt] at h
      obtain ⟨rfl, rfl⟩ := h.of_done
      simpa using hle

/-- What is found is the last record that was asked for, and has the address. -/
theorem path_last {position : Nat} {target : Address}
    {result : Except Error (Option AddressRecord)}
    (h : (do
      let found ← record position
      return if found.address = target then some found else none : Lookup _).Path probes result) :
    ∃ answer, probes = [⟨position, answer⟩] ∧
      ∀ found, result = .ok (some found) → found.address = target ∧ answer = .ok found := by
  rcases h.of_ask with ⟨found, rest, rfl, hdone⟩ | ⟨e, rfl, rfl⟩
  · obtain ⟨rfl, rfl⟩ := hdone.of_done
    refine ⟨_, rfl, fun other heq => ?_⟩
    have hsome := Except.ok.inj heq
    split at hsome
    · next haddress =>
      cases hsome
      exact ⟨haddress, rfl⟩
    · cases hsome
  · exact ⟨_, rfl, fun _ heq => nomatch heq⟩

/-- The last of at most 33 probes decides a search of a table of 32-bit length. -/
theorem path_search {count : Nat} {target : Address} {result : Except Error (Option AddressRecord)}
    (h : (search count target).Path probes result) (hc : count < UInt32.size) :
    (∀ probe ∈ probes, probe.position < count) ∧ probes.length ≤ 33 ∧
      ∀ found, result = .ok (some found) →
        found.address = target ∧ ∃ probe ∈ probes, probe.answer = .ok found := by
  rcases h.of_bind with ⟨e, rfl, hbound⟩ | ⟨position, first, rest, rfl, hbound, hrest⟩
  · obtain ⟨hinside, hlength, -⟩ := path_lowerBound (k := 32) hbound (Nat.zero_le _) hc
    exact ⟨fun probe hmem => (hinside probe hmem).2, by omega, fun _ heq => nomatch heq⟩
  · obtain ⟨hinside, hlength, hposition⟩ := path_lowerBound (k := 32) hbound (Nat.zero_le _) hc
    have hle := hposition position rfl
    by_cases hend : position = count
    · rw [if_pos hend] at hrest
      obtain ⟨rfl, rfl⟩ := hrest.of_done
      rw [List.append_nil]
      exact ⟨fun probe hmem => (hinside probe hmem).2, by omega, fun _ heq => nomatch heq⟩
    · rw [if_neg hend] at hrest
      obtain ⟨answer, rfl, hfound⟩ := path_last hrest
      refine ⟨fun probe hmem => ?_, by simp; omega, fun found heq => ?_⟩
      · rcases List.mem_append.mp hmem with hmem | hmem
        · exact (hinside probe hmem).2
        · rw [List.mem_singleton.mp hmem]
          exact Nat.lt_of_le_of_ne hle hend
      · obtain ⟨haddress, rfl⟩ := hfound found heq
        exact ⟨haddress, _, List.mem_append_right _ (List.mem_singleton_self _), rfl⟩

end Lookup

/-! ## The answers of a source -/

namespace ChunkFile

/-- What the source has to say of the record at a position: its bytes, or why its place cannot be
reached or read. -/
inductive Answers (chunk : ChunkFile) (position : Nat) : Except Error AddressRecord → Prop where
  | stored {bs : Bytes} {next : Nat}
      (hseek : chunk.source.seek (AddressRecord.location chunk.header position) = .ok ())
      (hread : chunk.source.read (AddressRecord.location chunk.header position)
        ChunkHeader.addressRecordWidth = (.ok bs, next)) :
      Answers chunk position (.ok (AddressRecord.ofBytes bs))
  | unreached {e : IoError}
      (hseek : chunk.source.seek (AddressRecord.location chunk.header position) = .error e) :
      Answers chunk position (.error (.io .seekAddressRecord e))
  | unread {e : IoError} {next : Nat}
      (hseek : chunk.source.seek (AddressRecord.location chunk.header position) = .ok ())
      (hread : chunk.source.read (AddressRecord.location chunk.header position)
        ChunkHeader.addressRecordWidth = (.error e, next)) :
      Answers chunk position (.error (.io .readAddressRecord e))

/-- A position inside the table is not refused: the answer is the source's. -/
theorem answers_of_lt {chunk : ChunkFile} {position : Nat}
    (h : position < chunk.header.addressCount.toNat) (cursor : Nat) :
    chunk.Answers position ((chunk.addressRecordAt position).run cursor).1 := by
  unfold addressRecordAt
  rw [if_neg (Nat.not_le_of_lt h)]
  cases hseek : chunk.source.seek (AddressRecord.location chunk.header position) with
  | error e =>
    simp only [Reading.run_bind, SeekableSource.seekTo_of_error hseek]
    exact .unreached hseek
  | ok _ =>
    cases hread : chunk.source.read (AddressRecord.location chunk.header position)
        ChunkHeader.addressRecordWidth with
    | mk answer next =>
      cases answer with
      | error e =>
        simp only [Reading.run_bind, SeekableSource.seekTo_of_ok hseek,
          SeekableSource.readNext_of_error hread]
        exact .unread hseek hread
      | ok bs =>
        simp only [Reading.run_bind, SeekableSource.seekTo_of_ok hseek,
          SeekableSource.readNext_of_ok hread]
        exact .stored hseek hread

/-- The search of any chunk, in order or not and whatever its source answers, is the search of a
table of that length with the answers of the source. It ends behind at most 33 probes, all at
positions of the table; a record that it finds has the address and was answered to one of them, and
if it fails one of the answers was the error. -/
theorem findAddress_probes (chunk : ChunkFile) (target : Address) :
    let search := Lookup.search chunk.header.addressCount.toNat target
    chunk.findAddress target = search.run chunk.addressRecordAt ∧
    (∀ cursor, ∃ probes, search.Path probes ((chunk.findAddress target).run cursor).1 ∧
      ∀ probe ∈ probes, chunk.Answers probe.position probe.answer) ∧
    ∀ probes result, search.Path probes result →
      probes.length ≤ 33 ∧
      (∀ probe ∈ probes, probe.position < chunk.header.addressCount.toNat) ∧
      (∀ found, result = .ok (some found) →
        found.address = target ∧ ∃ probe ∈ probes, probe.answer = .ok found) ∧
      (∀ e, result = .error e → ∃ probe ∈ probes, probe.answer = .error e) := by
  intro search
  have hcount : chunk.header.addressCount.toNat < UInt32.size := chunk.header.addressCount.toNat_lt
  refine ⟨rfl, fun cursor => ?_, fun probes result hpath => ?_⟩
  · obtain ⟨probes, hpath, hread⟩ := search.exists_path_of_run chunk.addressRecordAt cursor
    obtain ⟨hinside, -, -⟩ := Lookup.path_search hpath hcount
    refine ⟨probes, hpath, fun probe hmem => ?_⟩
    obtain ⟨c, hanswer⟩ := hread probe hmem
    rw [← hanswer]
    exact answers_of_lt (hinside probe hmem) c
  · obtain ⟨hinside, hlength, hfound⟩ := Lookup.path_search hpath hcount
    refine ⟨hlength, hinside, hfound, ?_⟩
    rintro e rfl
    exact hpath.mem_of_error

end ChunkFile

end AppearanceIndex
