import AppearanceIndex.Bytes
import AppearanceIndex.IoError

/-!
# Positional sources

A positional source is read at absolute offsets and has no cursor, so one source serves many
readers at once. Its reads are exact: they give as many bytes as were asked for, or fail. Bytes in
memory refuse every read that does not lie inside them, an empty one beyond their end included; an
open file grants every empty read and refuses to reach beyond the largest offset.
-/

namespace AppearanceIndex

structure PositionalSource where
  /-- The total number of bytes, or why it cannot be told. -/
  size : Except IoError Nat
  /-- Reads a number of bytes from an offset on. -/
  read : (offset count : Nat) → Except IoError Bytes
  length_read : ∀ {offset count bs}, read offset count = .ok bs → bs.length = count

namespace PositionalSource

/-- The bytes of an array from an offset on. -/
def slice (bytes : Array UInt8) (offset count : Nat) : Bytes :=
  (bytes.extract offset (offset + count)).toList

@[simp] theorem slice_toArray (bs : Bytes) (offset count : Nat) :
    slice bs.toArray offset count = (bs.drop offset).take count := by
  simp [slice, List.take_drop]

theorem length_slice {bytes : Array UInt8} {offset count : Nat}
    (h : offset + count ≤ bytes.size) : (slice bytes offset count).length = count := by
  simp [slice]; omega

/-- Bytes in memory. -/
def ofBytes (bs : Bytes) : PositionalSource :=
  let bytes := bs.toArray
  { size := .ok bytes.size
    read := fun offset count =>
      if offset + count ≤ bytes.size then .ok (slice bytes offset count) else .error .pastEnd
    length_read := by
      intro offset count out h
      split at h
      · next hle => cases h; exact length_slice hle
      · cases h }

/-- The largest offset of a byte in a file, plus one. -/
def offsetLimit : Nat := UInt64.size / 2

/-- An open file with the given content. -/
def ofFile (bs : Bytes) : PositionalSource :=
  let bytes := bs.toArray
  { size := .ok bytes.size
    read := fun offset count =>
      if count = 0 then .ok []
      else if offsetLimit ≤ offset + count then .error .invalidArgument
      else if offset + count ≤ bytes.size then .ok (slice bytes offset count)
      else .error .unfilled
    length_read := by
      intro offset count out h
      split at h
      · next h0 => cases h; simp [h0]
      · split at h
        · cases h
        · split at h
          · next hle => cases h; exact length_slice hle
          · cases h }

end PositionalSource

end AppearanceIndex
