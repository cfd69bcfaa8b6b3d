import AppearanceIndex.Error
import AppearanceIndex.Source.Positional

/-!
# Seekable sources

A seekable source is read from a cursor. Readers of index files run in `Reading`: a computation
that starts from the cursor where the last one left it and may fail, in which case the cursor stays
where the failure left it. Seeking fails or moves the cursor; how far a failed read moves it is the
source's own affair.
-/

namespace AppearanceIndex

structure SeekableSource where
  /-- Moving the cursor to an absolute offset. -/
  seek : (offset : Nat) → Except IoError Unit
  /-- Moving the cursor to the end, which tells the total number of bytes. -/
  size : Except IoError Nat
  /-- Reads a number of bytes from the cursor on, and gives the new cursor. -/
  read : (cursor count : Nat) → Except IoError Bytes × Nat
  length_read : ∀ {cursor count bs}, (read cursor count).1 = .ok bs → bs.length = count

/-- A computation over a cursor that may fail. -/
abbrev Reading := ExceptT Error (StateM Nat)

namespace SeekableSource

/-- Moves the cursor to an offset, as part of an operation. -/
def seekTo (source : SeekableSource) (operation : Operation) (offset : Nat) : Reading Unit :=
  fun cursor =>
    match source.seek offset with
    | .ok () => (.ok (), offset)
    | .error e => (.error (.io operation e), cursor)

/-- Moves the cursor to the end and tells the size. -/
def seekEnd (source : SeekableSource) (operation : Operation) : Reading Nat := fun cursor =>
  match source.size with
  | .ok size => (.ok size, size)
  | .error e => (.error (.io operation e), cursor)

/-- Reads at the cursor; `refuse` turns a failure into an error. -/
def readWith (source : SeekableSource) (refuse : IoError → Error) (count : Nat) : Reading Bytes :=
  fun cursor =>
    match source.read cursor count with
    | (.ok bs, next) => (.ok bs, next)
    | (.error e, next) => (.error (refuse e), next)

/-- Reads at the cursor, as part of an operation. -/
def readNext (source : SeekableSource) (operation : Operation) (count : Nat) : Reading Bytes :=
  source.readWith (.io operation) count

/-- Bytes in memory. -/
def ofBytes (bs : Bytes) : SeekableSource :=
  let bytes := bs.toArray
  { seek := fun _ => .ok ()
    size := .ok bytes.size
    read := fun cursor count =>
      if count = 0 ∨ cursor + count ≤ bytes.size then
        (.ok (PositionalSource.slice bytes cursor count), cursor + count)
      else (.error .unfilled, max cursor bytes.size)
    length_read := by
      intro cursor count out h
      split at h
      · next hle =>
        cases h
        rcases hle with h0 | hle
        · simp [PositionalSource.slice, h0]
        · exact PositionalSource.length_slice hle
      · cases h }

/-- A source of which every read fails in the same way, as those of an opened directory do. -/
def refusing (e : IoError) : SeekableSource where
  seek _ := .ok ()
  size := .ok 0
  read cursor _ := (.error e, cursor)
  length_read h := nomatch h

end SeekableSource

theorem SeekableSource.length_of_readNext {source : SeekableSource} {operation : Operation}
    {count cursor next : Nat} {bs : Bytes}
    (h : (source.readNext operation count).run cursor = (.ok bs, next)) : bs.length = count := by
  simp only [readNext, readWith, ExceptT.run] at h
  split at h
  · next hr => cases h; exact source.length_read (by rw [hr])
  · cases h

/-! ## Sequences of readings -/

namespace Reading

/-- The result of a computation that starts at the beginning of its source. -/
def fromStart {α : Type} (reading : Reading α) : Except Error α := (reading.run 0).1

theorem run_bind {α β : Type} (reading : Reading α) (f : α → Reading β) (cursor : Nat) :
    (reading >>= f).run cursor =
      match reading.run cursor with
      | (.ok a, next) => (f a).run next
      | (.error e, next) => (.error e, next) := by
  simp only [bind, ExceptT.bind, ExceptT.mk, StateT.bind, ExceptT.run, ExceptT.bindCont]
  generalize reading cursor = out
  rcases out with ⟨result, next⟩
  cases result <;> rfl

theorem ok_of_bind {α β : Type} {reading : Reading α} {f : α → Reading β} {cursor : Nat} {b : β}
    (h : ((reading >>= f).run cursor).1 = .ok b) :
    ∃ a next, reading.run cursor = (.ok a, next) ∧ ((f a).run next).1 = .ok b := by
  rw [run_bind] at h
  split at h
  · next a next hr => exact ⟨a, next, hr, h⟩
  · cases h

end Reading

end AppearanceIndex
