import AppearanceIndex.Source.Seekable

/-!
# Sparse sources with faults

A `SparseSource` stands for a large or damaged file without holding all of it: some bytes from the
start, patches at any offset, zeros elsewhere if wanted, a size that it reports whatever it holds,
and faults that fire when a read or a seek begins at a certain offset or when the size is asked
for. It serves as a positional and as a seekable source.
-/

namespace AppearanceIndex

inductive FaultPoint where
  | readAt (offset : Nat)
  | seekTo (offset : Nat)
  | size
deriving DecidableEq

structure Fault where
  point : FaultPoint
  error : IoError

/-- A source given by its parts. -/
structure SparseSource where
  /-- The bytes from the start on. -/
  start : Array UInt8
  /-- Bytes at other places; the first patch that covers an offset counts, before `start`. -/
  patches : List (Nat × Array UInt8)
  /-- An offset below the size that nothing covers holds a zero. -/
  zeroFilled : Bool
  /-- The size that is reported. -/
  size : Nat
  faults : List Fault

namespace SparseSource

def patched? (offset : Nat) (patch : Nat × Array UInt8) : Option UInt8 :=
  if patch.1 ≤ offset then patch.2[offset - patch.1]? else none

def byteAt? (s : SparseSource) (offset : Nat) : Option UInt8 :=
  (s.patches.findSome? (patched? offset)).or
    (s.start[offset]?.or (if s.zeroFilled && offset < s.size then some 0 else none))

/-- The bytes from an offset on, `count` at most, up to the first that is missing. -/
def available (s : SparseSource) (offset : Nat) : (count : Nat) → Bytes
  | 0 => []
  | count + 1 =>
    match s.byteAt? offset with
    | some b => b :: s.available (offset + 1) count
    | none => []

def faultAt? (s : SparseSource) (point : FaultPoint) : Option IoError :=
  (s.faults.find? (·.point = point)).map (·.error)

/-- The outcome of something that succeeds unless a fault fires. -/
def guarded {α : Type} (s : SparseSource) (point : FaultPoint) (a : α) : Except IoError α :=
  match s.faultAt? point with
  | some e => .error e
  | none => .ok a

/-- A positional read: the fault at its offset, else all bytes or none. -/
def readAt (s : SparseSource) (offset count : Nat) : Except IoError Bytes := do
  s.guarded (.readAt offset) ()
  let bs := s.available offset count
  if bs.length = count then .ok bs else .error .pastEnd

/-- A read from the cursor. What a short read leaves is asked for by a second one, which begins
where the first ended and meets the end of the source, or a fault. -/
def readNext (s : SparseSource) (cursor count : Nat) : Except IoError Bytes × Nat :=
  if count = 0 then (.ok [], cursor)
  else
    match s.faultAt? (.readAt cursor) with
    | some e => (.error e, cursor)
    | none =>
      let bs := s.available cursor count
      if bs.length = count then (.ok bs, cursor + count)
      else if bs.length = 0 then (.error .unfilled, cursor)
      else (.error ((s.faultAt? (.readAt (cursor + bs.length))).getD .unfilled), cursor + bs.length)

def positional (s : SparseSource) : PositionalSource where
  size := s.guarded .size s.size
  read := s.readAt
  length_read := by
    intro offset count bs h
    simp only [readAt, bind, Except.bind] at h
    split at h
    · cases h
    · split at h
      · next hl => cases h; exact hl
      · cases h

def seekable (s : SparseSource) : SeekableSource where
  seek offset := s.guarded (.seekTo offset) ()
  size := s.guarded .size s.size
  read := s.readNext
  length_read := by
    intro cursor count bs h
    simp only [readNext] at h
    split at h
    · next h0 => cases h; simp [h0]
    · split at h
      · cases h
      · split at h
        · next hl => cases h; exact hl
        · split at h <;> cases h

end SparseSource

end AppearanceIndex
