import AppearanceIndex.Bytes

/-!
# Bloom headers

A bloom file begins with a magic number of two bytes and a digest, which is never verified. The
number of blocks follows, then the blocks, each a count of insertions and its bits.
-/

namespace AppearanceIndex

structure BloomHeader where
  magic : UInt16
  /-- The content digest that the indexer wrote. -/
  hash : Vector UInt8 32
deriving DecidableEq

namespace BloomHeader

def width : Nat := 34

def bloomMagic : UInt16 := 0xdead

/-- Where the first block begins: the number of blocks takes four bytes after the header. -/
def blocksStart : Nat := 38

/-- The number of bytes of a block: four for the count of insertions, then the bits. -/
def blockWidth : Nat := 131076

def ofBytes (bs : Bytes) : BloomHeader where
  magic := UInt16.ofNat (bs.wordAt 0 2)
  hash := bs.window 2 32

def toBytes (h : BloomHeader) : Bytes :=
  Bytes.littleEndian 2 h.magic.toNat ++ h.hash.toList

/-- The number of blocks that stands behind the header, as a signed word. -/
def blockCount (bs : Bytes) : Int := (UInt32.ofNat (bs.wordAt width 4)).toInt32.toInt

end BloomHeader

end AppearanceIndex
