import AppearanceIndex.Error

/-!
# Chunk headers

A chunk file is a header of 44 bytes, a table of address records and a table of appearances. The
header declares how long both tables are, and hence how many bytes the file needs
(`ChunkHeader.fileSize`). `ChunkHeader.validate` is the whole admission check: the magic number and
a size that holds both tables. The digest is carried along and never verified.
-/

namespace AppearanceIndex

structure ChunkHeader where
  magic : UInt32
  /-- The content digest that the indexer wrote. -/
  hash : Vector UInt8 32
  addressCount : UInt32
  appearanceCount : UInt32
deriving DecidableEq

namespace ChunkHeader

def width : Nat := 44

def chunkMagic : UInt32 := 0xdeadbeef

def addressRecordWidth : Nat := 28

def appearanceWidth : Nat := 8

def ofBytes (bs : Bytes) : ChunkHeader where
  magic := UInt32.ofNat (bs.wordAt 0 4)
  hash := bs.window 4 32
  addressCount := UInt32.ofNat (bs.wordAt 36 4)
  appearanceCount := UInt32.ofNat (bs.wordAt 40 4)

def toBytes (h : ChunkHeader) : Bytes :=
  Bytes.littleEndian 4 h.magic.toNat ++ h.hash.toList ++ Bytes.littleEndian 4 h.addressCount.toNat
    ++ Bytes.littleEndian 4 h.appearanceCount.toNat

def addressTableStart (_ : ChunkHeader) : Nat := width

def appearanceTableStart (h : ChunkHeader) : Nat :=
  h.addressTableStart + h.addressCount.toNat * addressRecordWidth

/-- The least size of a file that holds both tables. -/
def fileSize (h : ChunkHeader) : Nat :=
  h.appearanceTableStart + h.appearanceCount.toNat * appearanceWidth

/-- Checks the magic number and that a source of `size` bytes holds both tables. -/
def validate (h : ChunkHeader) (range : BlockRange) (size : Nat) : Except Error Unit :=
  if h.magic ≠ chunkMagic then .error (.malformed .chunk range (.badMagic 4 h.magic.toNat))
  else if size < h.fileSize then .error (.malformed .chunk range (.tablesTooLong h.fileSize size))
  else .ok ()

/-- A span of the appearance table that reaches beyond its end. -/
def spanOutside (h : ChunkHeader) (range : BlockRange) (offset count : Nat) (address : Address) :
    Error :=
  .malformed .chunk range (.spanOutside offset count address h.appearanceCount.toNat)

end ChunkHeader

end AppearanceIndex
