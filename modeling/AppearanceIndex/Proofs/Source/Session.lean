import AppearanceIndex.Bloom.File
import AppearanceIndex.Chunk.File
import AppearanceIndex.Proofs.Source.Reading
import AppearanceIndex.Source.Sparse

/-!
# Lookups one behind the other

All lookups in an open file share one cursor, and a lookup that fails may leave it anywhere. A
`Session` is a sequence of lookups that are carried out so. Every lookup seeks an absolute offset
before each of its reads, hence is steady: what comes of it is the same wherever the cursor is. So
an open file `Forgets`: in every session each lookup, failed or not, ends as it does alone in a file
that was opened just for it.
-/

namespace AppearanceIndex

open Reading

/-! ## Lookups -/

/-- A search is steady if its probes are. -/
theorem steady_lowerBound {probe : Nat → Reading Bool} (h : ∀ position, (probe position).Steady)
    (low high : Nat) : (lowerBound probe low high).Steady := by
  generalize hn : high - low = n
  induction n using Nat.strongRecOn generalizing low high with
  | ind n ih =>
    unfold lowerBound
    by_cases hlt : low < high
    · rw [dif_pos hlt]
      refine (h _).bind fun reached => ?_
      cases reached with
      | true => exact ih _ (by omega) low _ rfl
      | false => exact ih _ (by omega) _ high rfl
    · rw [dif_neg hlt]
      exact steady_pure low

namespace ChunkFile

theorem steady_openNamed (source : SeekableSource) (name : String) :
    (openNamed source name).Steady := by
  unfold openNamed
  refine (steady_lift _).bind fun range => ?_
  refine source.steady_seekTo_readWith_bind _ _ _ _ fun bs => ?_
  refine (source.steady_seekEnd _).bind fun size => ?_
  exact (steady_lift _).bind fun _ => steady_pure _

variable (chunk : ChunkFile)

theorem steady_addressRecordAt (position : Nat) : (chunk.addressRecordAt position).Steady :=
  steady_unless _ (chunk.source.steady_seekTo_readWith_bind _ _ _ _ fun _ => steady_pure _)

theorem steady_reaches (target : Address) (position : Nat) :
    (chunk.reaches target position).Steady :=
  (chunk.steady_addressRecordAt position).bind fun _ => steady_pure _

theorem steady_findAddress (target : Address) : (chunk.findAddress target).Steady := by
  rw [findAddress_eq]
  refine (steady_lowerBound (chunk.steady_reaches target) _ _).bind fun position => ?_
  refine (steady_pure none).ite ?_
  exact (chunk.steady_addressRecordAt position).bind fun _ => steady_pure _

theorem steady_readAppearances (record : AddressRecord) :
    (chunk.readAppearances record).Steady :=
  steady_unless _ (chunk.source.steady_seekTo_readWith_bind _ _ _ _ fun _ => steady_pure _)

theorem steady_getAppearances (target : Address) : (chunk.getAppearances target).Steady := by
  refine (chunk.steady_findAddress target).bind fun found => ?_
  cases found with
  | some record => exact chunk.steady_readAppearances record
  | none => exact steady_pure []

inductive Query where
  /-- The record at a position of the address table. -/
  | record (position : Nat)
  /-- The record of an address. -/
  | search (target : Address)
  /-- The appearances of a record's span; the record may come from anywhere. -/
  | span (record : AddressRecord)
  /-- The appearances of an address. -/
  | appearances (target : Address)

def Query.Answer : Query → Type
  | record _ => AddressRecord
  | search _ => Option AddressRecord
  | span _ | appearances _ => List Appearance

def ask (chunk : ChunkFile) : (query : Query) → Reading query.Answer
  | .record position => chunk.addressRecordAt position
  | .search target => chunk.findAddress target
  | .span record => chunk.readAppearances record
  | .appearances target => chunk.getAppearances target

theorem steady_ask (query : Query) : (chunk.ask query).Steady := by
  cases query with
  | record position => exact chunk.steady_addressRecordAt position
  | search target => exact chunk.steady_findAddress target
  | span record => exact chunk.steady_readAppearances record
  | appearances target => exact chunk.steady_getAppearances target

end ChunkFile

namespace BloomFile

theorem steady_validate (range : BlockRange) (header : BloomHeader) (blockCount : Int)
    {size : Reading Nat} (h : size.Steady) : (validate range header blockCount size).Steady := by
  refine steady_unless _ (steady_unless _ ?_)
  exact h.bind fun size => steady_unless _ (steady_pure _)

theorem steady_openNamed (source : SeekableSource) (name : String) :
    (openNamed source name).Steady := by
  unfold openNamed
  refine (steady_lift _).bind fun range => ?_
  refine source.steady_seekTo_readWith_bind _ _ _ _ fun bs => ?_
  exact (steady_validate _ _ _ (source.steady_seekEnd _)).bind fun _ => steady_pure _

variable (bloom : BloomFile)

theorem steady_blockHasBits (block : Nat) (bits : List Nat) :
    (bloom.blockHasBits block bits).Steady := by
  induction bits with
  | nil => exact steady_pure true
  | cons bit bits ih =>
    exact bloom.source.steady_seekTo_readWith_bind _ _ _ _ fun _ => ih.ite (steady_pure false)

theorem steady_anyBlockHasBits (bits : List Nat) (block count : Nat) :
    (bloom.anyBlockHasBits bits block count).Steady := by
  induction count generalizing block with
  | zero => exact steady_pure false
  | succ count ih =>
    exact (bloom.steady_blockHasBits block bits).bind fun _ => (steady_pure true).ite (ih _)

theorem steady_isMember (address : Address) : (bloom.isMember address).Steady :=
  bloom.steady_anyBlockHasBits _ _ _

end BloomFile

/-! ## Sessions -/

section Session

variable {File Query : Type} {Answer : Query → Type}

/-- A query that was asked, and what came of it. -/
structure Answered (Answer : Query → Type) where
  query : Query
  result : Except Error (Answer query)

/-- Queries that are asked one behind the other. Each begins where the one before it left the
cursor, and one that fails may leave it anywhere. -/
inductive Session (ask : (query : Query) → Reading (Answer query)) :
    (cursor : Nat) → List (Answered Answer) → Prop where
  | done (cursor : Nat) : Session ask cursor []
  | answered {cursor next : Nat} {query : Query} {answer : Answer query}
      {later : List (Answered Answer)} (h : (ask query).run cursor = (.ok answer, next))
      (hlater : Session ask next later) : Session ask cursor (⟨query, .ok answer⟩ :: later)
  | failed {cursor : Nat} {query : Query} {e : Error} {later : List (Answered Answer)}
      (h : ((ask query).run cursor).1 = .error e) (left : Nat)
      (hlater : Session ask left later) : Session ask cursor (⟨query, .error e⟩ :: later)

variable {ask : (query : Query) → Reading (Answer query)} {cursor : Nat}

/-- Every list of queries can be asked. -/
theorem Session.exists_of_queries (ask : (query : Query) → Reading (Answer query)) (cursor : Nat)
    (queries : List Query) :
    ∃ session : List (Answered Answer), Session ask cursor session ∧
      session.map (·.query) = queries := by
  induction queries generalizing cursor with
  | nil => exact ⟨[], .done cursor, rfl⟩
  | cons query queries ih =>
    cases hrun : (ask query).run cursor with
    | mk result next =>
      obtain ⟨later, hlater, rfl⟩ := ih next
      cases result with
      | ok answer => exact ⟨_, .answered hrun hlater, rfl⟩
      | error e => exact ⟨_, .failed (by rw [hrun]) next hlater, rfl⟩

/-- Where the lookups are steady, a session holds what each of them gives by itself. -/
theorem Session.gives {session : List (Answered Answer)} (h : Session ask cursor session)
    (hsteady : ∀ query, (ask query).Steady) :
    ∀ entry ∈ session, (ask entry.query).Gives entry.result := by
  induction h with
  | done => exact fun _ hmem => nomatch hmem
  | @answered cursor next query answer later hrun _ ih =>
    obtain ⟨result, hgives⟩ := hsteady query
    have hresult : result = .ok answer := by rw [← hgives cursor, hrun]
    exact List.forall_mem_cons.mpr ⟨hresult ▸ hgives, ih⟩
  | @failed cursor query e later hfailed _ _ ih =>
    obtain ⟨result, hgives⟩ := hsteady query
    have hresult : result = .error e := (hgives cursor).symm.trans hfailed
    exact List.forall_mem_cons.mpr ⟨hresult ▸ hgives, ih⟩

/-- A file, once open, forgets what it was asked: behind the opening every list of queries can be
asked, and whatever it is, each of them ends as it does when it is the only one asked of a file
opened afresh, wherever the cursor was before that. -/
def Forgets (opening : Reading File) (ask : File → (query : Query) → Reading (Answer query)) :
    Prop :=
  ∀ file start cursor, opening.run start = (.ok file, cursor) →
    (∀ queries : List Query, ∃ session : List (Answered Answer),
      Session (ask file) cursor session ∧ session.map (·.query) = queries) ∧
    ∀ session, Session (ask file) cursor session → ∀ entry ∈ session,
      Reading.Gives (do let fresh ← opening; ask fresh entry.query) entry.result

theorem forgets_of_steady {opening : Reading File}
    {ask : File → (query : Query) → Reading (Answer query)} (hopening : opening.Steady)
    (hask : ∀ file query, (ask file query).Steady) : Forgets opening ask := by
  intro file start cursor hopened
  obtain ⟨result, hresult⟩ := hopening
  have hfile : result = .ok file := by rw [← hresult start, hopened]
  rw [hfile] at hresult
  refine ⟨Session.exists_of_queries (ask file) cursor, fun session hsession entry hmem => ?_⟩
  exact hresult.bind (hsession.gives (hask file) entry hmem)

end Session

/-- Lookups in a file do not depend on the lookups before them, nor on whether these failed. -/
theorem lookups_forget (source : SeekableSource) (name : String) :
    Forgets (ChunkFile.openNamed source name) ChunkFile.ask ∧
      Forgets (BloomFile.openNamed source name) BloomFile.isMember :=
  ⟨forgets_of_steady (ChunkFile.steady_openNamed source name) ChunkFile.steady_ask,
    forgets_of_steady (BloomFile.steady_openNamed source name) BloomFile.steady_isMember⟩

/-- A chunk of one address, with a fault where its one appearance stands. -/
def damagedChunk : SeekableSource :=
  let bytes := ChunkHeader.toBytes ⟨ChunkHeader.chunkMagic, Vector.replicate 32 0, 1, 1⟩ ++
    AddressRecord.toBytes ⟨.ofNat 1, 0, 1⟩ ++ Appearance.toBytes ⟨4, 2⟩
  SparseSource.seekable ⟨bytes.toArray, [], false, 80, [⟨.readAt 72, .pastEnd⟩]⟩

def damagedFile : ChunkFile :=
  ⟨damagedChunk, ⟨10, 19⟩, ⟨ChunkHeader.chunkMagic, Vector.replicate 32 0, 1, 1⟩⟩

theorem lookups_forget_damaged :
    (∃ cursor, (ChunkFile.openNamed damagedChunk "10-19.bin").run 0 = (.ok damagedFile, cursor) ∧
      Session damagedFile.ask cursor
        [⟨.span ⟨.ofNat 1, 0, 1⟩, .error (.io .readAppearances .pastEnd)⟩,
          ⟨.record 0, .ok ⟨.ofNat 1, 0, 1⟩⟩]) ∧
      Reading.Gives
        (do let fresh ← ChunkFile.openNamed damagedChunk "10-19.bin"; fresh.ask (.record 0))
        (.ok ⟨.ofNat 1, 0, 1⟩) := by
  have hname : BlockRange.parse? "10-19.bin" = some ⟨10, 19⟩ := by decide +kernel
  have hopen : (ChunkFile.openNamed damagedChunk "10-19.bin").run 0 = (.ok damagedFile, 80) := by
    unfold ChunkFile.openNamed BlockRange.ofName
    rw [hname]
    rfl
  have hspan : (damagedFile.readAppearances ⟨.ofNat 1, 0, 1⟩).run 80 =
      (.error (.io .readAppearances .pastEnd), 72) := by rfl
  have hrecord : (damagedFile.addressRecordAt 0).run 1000 = (.ok ⟨.ofNat 1, 0, 1⟩, 72) := by rfl
  -- the span that fails may leave the cursor beyond the end of the source
  have hsession : Session damagedFile.ask 80
      [⟨.span ⟨.ofNat 1, 0, 1⟩, .error (.io .readAppearances .pastEnd)⟩,
        ⟨.record 0, .ok ⟨.ofNat 1, 0, 1⟩⟩] :=
    .failed (congrArg Prod.fst hspan) 1000 (.answered hrecord (.done 72))
  obtain ⟨hchunk, -⟩ := lookups_forget damagedChunk "10-19.bin"
  obtain ⟨-, hforgets⟩ := hchunk damagedFile 0 80 hopen
  exact ⟨⟨80, hopen, hsession⟩, hforgets _ hsession ⟨.record 0, _⟩ (by simp)⟩

end AppearanceIndex
