import AppearanceIndex.Program
import AppearanceIndex.Proofs.Chunk.Opened
import AppearanceIndex.Proofs.Index.Coherent
import AppearanceIndex.Proofs.Text.OneLine

/-!
# What searches print

A search prints appearances as its scan sends them, or all of them in order when the scan has ended
(`Program.Searches`, for any order in which the participants of the scan move). All searches of one
index for one address succeed, or all of them fail. If they succeed they print the same lines, and
the sorted ones print the same text. If they fail, what was printed before is in the index
(`IndexDirectory.Holds`): an appearance is sent only after the search of a whole chunk, which finds
a record of the address and reads its span.
-/

namespace AppearanceIndex

/-! ## What an index holds -/

namespace ChunkFile

variable {bs : Bytes} {range : BlockRange} {target : Address} {cursor : Nat}

theorem mem_of_addressRecordAt (h : Chunk.Admitted bs) {position : Nat} {record : AddressRecord}
    (hread : (((ofBytes bs range).addressRecordAt position).run cursor).1 = .ok record) :
    record ∈ Chunk.addressTable bs := by
  by_cases hlt : position < (Chunk.header bs).addressCount.toNat
  · obtain ⟨held, hheld, hgives⟩ := exists_record h hlt
    cases (hgives cursor).symm.trans hread
    exact List.mem_of_getElem? hheld
  · have hrefused := (addressRecordAt_of_le (Nat.le_of_not_lt hlt) cursor).symm.trans hread
    cases hrefused

theorem record_of_findAddress (h : Chunk.Admitted bs) {record : AddressRecord}
    (hrun : (((ofBytes bs range).findAddress target).run cursor).1 = .ok (some record)) :
    record ∈ Chunk.addressTable bs ∧ record.address = target := by
  rw [findAddress_eq] at hrun
  obtain ⟨position, next, -, hrun⟩ := Reading.ok_of_bind hrun
  split at hrun
  · cases hrun
  · obtain ⟨read, last, hread, hrun⟩ := Reading.ok_of_bind hrun
    have hfound : (if read.address = target then some read else none) = some record :=
      Except.ok.inj hrun
    split at hfound
    · next heq =>
      cases hfound
      exact ⟨mem_of_addressRecordAt h (congrArg Prod.fst hread), heq⟩
    · cases hfound

theorem span_of_getAppearances (h : Chunk.Admitted bs) {apps : List Appearance}
    (hrun : (((ofBytes bs range).getAppearances target).run cursor).1 = .ok apps)
    {app : Appearance} (happ : app ∈ apps) :
    ∃ record ∈ Chunk.addressTable bs, record.address = target ∧
      record.Fits (Chunk.header bs) ∧ app ∈ Chunk.spanOf bs record := by
  unfold getAppearances at hrun
  obtain ⟨found, next, hfind, hrun⟩ := Reading.ok_of_bind hrun
  cases found with
  | none =>
    cases hrun
    cases happ
  | some record =>
    obtain ⟨hmem, haddress⟩ := record_of_findAddress h (congrArg Prod.fst hfind)
    by_cases hfits : record.Fits (Chunk.header bs)
    · have hspan := (readAppearances_ofBytes h hfits next).symm.trans hrun
      rw [← Except.ok.inj hspan] at happ
      exact ⟨record, hmem, haddress, hfits, happ⟩
    · have hrefused := (readAppearances_of_not_fits hfits next).symm.trans hrun
      cases hrefused

end ChunkFile

namespace IndexDirectory

variable {d : IndexDirectory} {files : FileStore} {chain name : String} {address : Address}

/-- A chunk file of the chain has a record of the address whose span has the appearance. -/
def Holds (d : IndexDirectory) (files : FileStore) (chain : String) (address : Address)
    (app : Appearance) : Prop :=
  ∃ name range bs, BlockRange.parse? name = some range ∧
    files.contentOf (d.chunkPath chain name) = .ok bs ∧ Chunk.Admitted bs ∧
    ∃ record ∈ Chunk.addressTable bs, record.address = address ∧
      record.Fits (Chunk.header bs) ∧ app ∈ Chunk.spanOf bs record

theorem openRead_of_openChunk {reader : SeekableSource}
    (h : (d.source files chain).openChunk name = .ok reader) :
    ∃ opened, files.openRead (d.chunkPath chain name) = .ok opened ∧ sourceOf opened = reader := by
  have hmap : (d.openChunk files chain name).map sourceOf = .ok reader := h
  cases hopen : d.openChunk files chain name with
  | error f =>
    rw [hopen] at hmap
    cases hmap
  | ok opened =>
    rw [hopen] at hmap
    exact ⟨opened, Activity.eq_of_ofIo hopen, Except.ok.inj hmap⟩

/-- A chunk can be read only from a file. -/
theorem content_of_openNamed {opened : OpenedFile} {chunk : ChunkFile} {cursor : Nat}
    (h : ((ChunkFile.openNamed (sourceOf opened) name).run cursor).1 = .ok chunk) :
    ∃ bs, opened = .content bs := by
  cases opened with
  | content bs => exact ⟨bs, rfl⟩
  | directory =>
    unfold ChunkFile.openNamed at h
    obtain ⟨_, _, -, h⟩ := Reading.ok_of_bind h
    obtain ⟨_, _, -, h⟩ := Reading.ok_of_bind h
    obtain ⟨_, _, hread, -⟩ := Reading.ok_of_bind h
    cases hread

/-- What the search of a chunk finds is in the index. -/
theorem holds_of_extract {apps : List Appearance}
    (h : (d.source files chain).extract address name = .ok apps) {app : Appearance}
    (happ : app ∈ apps) : d.Holds files chain address app := by
  simp only [RangeSource.extract, bind, Except.bind] at h
  split at h
  · cases h
  · next reader hreader =>
    split at h
    · cases h
    · next chunk hchunk =>
      obtain ⟨opened, hread, rfl⟩ := openRead_of_openChunk (Activity.eq_of_around hreader)
      have hopen := Activity.eq_of_ofIndex hchunk
      obtain ⟨bs, rfl⟩ := content_of_openNamed hopen
      obtain ⟨range, hname, hadmitted, rfl⟩ := ChunkFile.eq_of_openNamed_ofBytes hopen
      exact ⟨name, range, bs, hname, FileStore.contentOf_of_openRead hread, hadmitted,
        ChunkFile.span_of_getAppearances hadmitted (Activity.eq_of_ofIndex h) happ⟩

end IndexDirectory

/-! ## What a scan sends -/

namespace Scan

variable {s : Scan}

/-- What was sent before the extractor ended was found in chunks of names that pass. -/
theorem Concludes.mem_found {emitted : List (Except Failure Appearance)} (h : s.Concludes emitted)
    {app : Appearance} (happ : .ok app ∈ emitted) :
    ∃ name ∈ s.positives, ∃ apps, s.found name = .ok apps ∧ app ∈ apps := by
  obtain ⟨names, hsearchable, hpositive, htold⟩ : ∃ names, s.Searchable names ∧
      (∀ name ∈ names, name ∈ s.positives) ∧ Except.ok app ∈ s.told names := by
    cases h with
    | @complete names _ _ hp hs => exact ⟨names, hs, fun name => hp.mem_iff.mp, happ⟩
    | @failed names rest f hp hs =>
      refine ⟨names, hs, fun name hmem => hp.mem_iff.mp (List.mem_append_left _ hmem), ?_⟩
      simpa using happ
  obtain ⟨app', happ', heq⟩ := List.mem_map.mp htold
  cases heq
  obtain ⟨name, hname, hmem⟩ := List.mem_flatMap.mp happ'
  exact ⟨name, hpositive name hname, _, hsearchable.found_eq hname, hmem⟩

theorem Ends.mem_found (hs : s.Fresh) {apps : List Appearance} {failure : Option Failure}
    (h : s.Ends apps failure) {app : Appearance} (happ : app ∈ apps) :
    ∃ name ∈ s.positives, ∃ found, s.found name = .ok found ∧ app ∈ found := by
  have hsent : Except.ok app ∈ apps.map (Except.ok : _ → Except Failure Appearance) :=
    List.mem_map_of_mem happ
  have hconcludes := h.concludes hs
  cases failure with
  | none => exact hconcludes.mem_found hsent
  | some f =>
    obtain ⟨more, hconcludes⟩ := hconcludes
    exact hconcludes.mem_found (List.mem_append_left _ hsent)

end Scan

/-! ## The order of appearances -/

namespace Appearance

theorem le_iff {a b : Appearance} : a.le b = true ↔
    a.block < b.block ∨ a.block = b.block ∧ a.transaction ≤ b.transaction := by
  unfold le cmp
  rw [Ordering.isLE_then_iff_or, Nat.compare_eq_lt, Nat.compare_eq_eq, Nat.isLE_compare,
    UInt32.toNat_inj]
  rfl

theorem eq_of_le {a b : Appearance} (h : a.le b = true) (h' : b.le a = true) : a = b := by
  rw [le_iff] at h h'
  obtain ⟨block, transaction⟩ := a
  obtain ⟨block', transaction'⟩ := b
  rw [mk.injEq]
  grind

theorem pairwise_sorted (apps : List Appearance) :
    (apps.mergeSort le).Pairwise fun a b => a.le b = true := by
  refine List.pairwise_mergeSort ?_ ?_ _
  · intro a b c hab hbc
    rw [le_iff] at hab hbc ⊢
    grind
  · intro a b
    rw [Bool.or_eq_true, le_iff, le_iff]
    grind

/-- The same appearances are sorted alike. -/
theorem sorted_eq_of_perm {apps other : List Appearance} (h : apps.Perm other) :
    apps.mergeSort le = other.mergeSort le := by
  have hperm : (apps.mergeSort le).Perm (other.mergeSort le) :=
    (List.mergeSort_perm _ _).trans (h.trans (List.mergeSort_perm _ _).symm)
  exact hperm.eq_of_pairwise (fun _ _ _ _ hab hba => eq_of_le hab hba) (pairwise_sorted apps)
    (pairwise_sorted other)

end Appearance

/-! ## Lines -/

namespace Program

def lineText (app : Appearance) : List Char :=
  Decimal.digits app.block.toNat ++ '\t' :: Decimal.digits app.transaction.toNat

/-- The lines of a text of which every line is ended. -/
def linesOf (printed : List Char) : List (List Char) := (printed.splitOn '\n').dropLast

theorem newline_not_mem_lineText (app : Appearance) : '\n' ∉ lineText app := by
  have hblock := Decimal.newline_not_mem_digits app.block.toNat
  have htransaction := Decimal.newline_not_mem_digits app.transaction.toNat
  simp [lineText, hblock, htransaction]

theorem linesOf_lines (apps : List Appearance) : linesOf (lines apps) = apps.map lineText := by
  have hlines : lines apps = (apps.map lineText).flatMap (· ++ ['\n']) := by
    rw [List.flatMap_map]
    rfl
  have hone : ∀ text ∈ apps.map lineText, '\n' ∉ text := by
    intro text htext
    obtain ⟨app, -, rfl⟩ := List.mem_map.mp htext
    exact newline_not_mem_lineText app
  rw [linesOf, hlines, splitOn_lines hone, List.dropLast_concat]

example : lines [⟨4, 2⟩, ⟨4, 2⟩, ⟨17, 0⟩] = "4\t2\n4\t2\n17\t0\n".toList := by decide +kernel

/-! ## Searches -/

/-- A search over a scan ends so and prints this, in some order of the moves. -/
def Searches (scan : Scan) (sort : Bool) (outcome : Except Failure Unit × List Char) : Prop :=
  ∃ apps failure, scan.Ends apps failure ∧ outcome = report sort apps failure

/-- The appearances in ascending order are what a scan finds, and all searches print them: the
sorted ones in this order, the others in some order. -/
structure PrintsAll (scan : Scan) (apps : List Appearance) : Prop where
  perm : apps.Perm (scan.positives.flatMap scan.appearances)
  ascending : apps.Pairwise fun a b =>
    a.block < b.block ∨ a.block = b.block ∧ a.transaction ≤ b.transaction
  linesOf_eq : linesOf (lines apps) = apps.map lineText
  sorted : ∀ outcome, Searches scan true outcome → outcome = (.ok (), lines apps)
  plain : ∀ outcome, Searches scan false outcome →
    outcome.1 = .ok () ∧ (linesOf (lines apps)).Perm (linesOf outcome.2)

/-- All searches over a scan fail: the sorted ones have printed nothing, the others only
appearances that are held. -/
structure PrintsSome (scan : Scan) (held : Appearance → Prop) : Prop where
  sorted : ∀ outcome, Searches scan true outcome → ∃ f, outcome = (.error f, [])
  plain : ∀ outcome, Searches scan false outcome →
    ∃ f apps, outcome = (.error f, lines apps) ∧ ∀ app ∈ apps, held app

variable {scan : Scan}

/-- Where one search can succeed, none can fail. -/
theorem printsAll_of_finds (hs : scan.Fresh) {found : List Appearance}
    (h : scan.Finds (.ok found)) : PrintsAll scan (found.mergeSort Appearance.le) := by
  have hcomplete := h.complete hs
  have hsame : ∀ {apps failure}, scan.Ends apps failure → failure = none ∧ apps.Perm found := by
    intro apps failure hends
    cases failure with
    | none =>
      have hother : scan.Finds (.ok apps) := hends.finds
      exact ⟨rfl, (hother.complete hs).perm.trans hcomplete.perm.symm⟩
    | some f =>
      have hfails : scan.Finds (.error f) := hends.finds
      obtain ⟨apps, heq, -⟩ :=
        hfails.perm hs hcomplete.listed hcomplete.answered hcomplete.searchable
      cases heq
  refine ⟨(List.mergeSort_perm _ _).trans hcomplete.perm, ?_, linesOf_lines _, ?_, ?_⟩
  · exact (Appearance.pairwise_sorted found).imp Appearance.le_iff.mp
  · rintro outcome ⟨apps, failure, hends, rfl⟩
    obtain ⟨rfl, hperm⟩ := hsame hends
    show (Except.ok (), lines (apps.mergeSort Appearance.le)) = _
    rw [Appearance.sorted_eq_of_perm hperm]
  · rintro outcome ⟨apps, failure, hends, rfl⟩
    obtain ⟨rfl, hperm⟩ := hsame hends
    refine ⟨rfl, ?_⟩
    show (linesOf _).Perm (linesOf (lines apps))
    rw [linesOf_lines, linesOf_lines]
    exact ((List.mergeSort_perm _ _).trans hperm.symm).map lineText

theorem printsSome_of_fails (hs : scan.Fresh) (h : ∀ apps, ¬ scan.Finds (.ok apps)) :
    PrintsSome scan fun app =>
      ∃ name ∈ scan.positives, ∃ found, scan.found name = .ok found ∧ app ∈ found := by
  have hfails : ∀ {apps failure}, scan.Ends apps failure → ∃ f, failure = some f := by
    intro apps failure hends
    cases failure with
    | none => exact absurd hends.finds (h apps)
    | some f => exact ⟨f, rfl⟩
  constructor
  · rintro outcome ⟨apps, failure, hends, rfl⟩
    obtain ⟨f, rfl⟩ := hfails hends
    exact ⟨_, rfl⟩
  · rintro outcome ⟨apps, failure, hends, rfl⟩
    obtain ⟨f, rfl⟩ := hfails hends
    exact ⟨_, apps, rfl, fun app happ => hends.mem_found hs happ⟩

theorem PrintsSome.imp {held other : Appearance → Prop} (h : PrintsSome scan held)
    (himp : ∀ app, held app → other app) : PrintsSome scan other where
  sorted := h.sorted
  plain outcome hsearches := by
    obtain ⟨f, apps, heq, hheld⟩ := h.plain outcome hsearches
    exact ⟨f, apps, heq, fun app happ => himp app (hheld app happ)⟩

variable (config : Config) (files : FileStore) (chain : String) (address : Address)

/-- The order of the moves of a scan decides neither whether a search succeeds nor what a sorted one
prints then. It decides the order of lines that are not sorted, which failure comes first and which
lines come before it. -/
theorem sorted_agrees_with_plain :
    match Scan.start? (config.index.source files chain) chain address config.scan with
    | none => ∀ sort, find config files address chain sort = none
    | some scan =>
      (∀ sort, ∃ outcome, find config files address chain sort =
        some ⟨outcome.1, outcome.2, files⟩ ∧ Searches scan sort outcome) ∧
      ((∃ apps, PrintsAll scan apps) ∨
        PrintsSome scan (config.index.Holds files chain address)) := by
  cases hstart : Scan.start? (config.index.source files chain) chain address config.scan with
  | none =>
    intro sort
    rw [find, hstart]
    rfl
  | some scan =>
    obtain ⟨hfresh, hsource, -, rfl⟩ := Scan.fresh_of_start hstart
    constructor
    · intro sort
      refine ⟨report sort scan.receiveAll.1 scan.receiveAll.2, ?_, _, _,
        Scan.ends_receiveAll hfresh.abandoned, rfl⟩
      rw [find, hstart]
      rfl
    · by_cases hfound : ∃ apps, scan.Finds (.ok apps)
      · obtain ⟨apps, hfinds⟩ := hfound
        exact .inl ⟨_, printsAll_of_finds hfresh hfinds⟩
      · refine .inr ((printsSome_of_fails hfresh (not_exists.mp hfound)).imp ?_)
        rintro app ⟨name, -, apps, hname, happ⟩
        rw [Scan.found, hsource] at hname
        exact IndexDirectory.holds_of_extract hname happ

end Program

end AppearanceIndex
