import AppearanceIndex.Bloom.Bits
import AppearanceIndex.Bloom.Header
import AppearanceIndex.Source.Seekable

/-!
# Bloom files

A `BloomFile` is a source whose header was admitted. A membership test reads single bytes of each
block and stops at the first bit that is not set, so `isMember` never says no to an address whose
bits one block holds.
-/

namespace AppearanceIndex

structure BloomFile where
  source : SeekableSource
  range : BlockRange
  header : BloomHeader
  blockCount : Nat

namespace BloomFile

/-- Checks a header, the count of blocks behind it and the size of the source. -/
def validate (range : BlockRange) (header : BloomHeader) (blockCount : Int)
    (size : Reading Nat) : Reading Nat := do
  if header.magic ≠ BloomHeader.bloomMagic then
    throw (.malformed .bloom range (.badMagic 2 header.magic.toNat))
  if blockCount < 0 then
    throw (.malformed .bloom range (.negativeBlockCount blockCount))
  let size ← size
  let needed := BloomHeader.blocksStart + blockCount.toNat * BloomHeader.blockWidth
  if size < needed then
    throw (.malformed .bloom range (.blocksTooLong blockCount.toNat needed size))
  return blockCount.toNat

def openNamed (source : SeekableSource) (name : String) : Reading BloomFile := do
  let range ← ExceptT.mk (pure (BlockRange.ofName name))
  source.seekTo .seekBloomHeader 0
  let bs ← source.readWith (.ofHeaderRead .bloom range .readBloomHeader) BloomHeader.blocksStart
  let header := BloomHeader.ofBytes bs
  let blockCount ← validate range header (BloomHeader.blockCount bs) (source.seekEnd .seekBloomEnd)
  return { source, range, header, blockCount }

def bitsetStart (block : Nat) : Nat :=
  BloomHeader.blocksStart + block * BloomHeader.blockWidth + 4

/-- Every bit of the list is set in the block; the first that is not ends the test. -/
def blockHasBits (bloom : BloomFile) (block : Nat) : List Nat → Reading Bool
  | [] => return true
  | bit :: bits => do
    bloom.source.seekTo .seekBloomByte (bitsetStart block + Bloom.byteIndex bit)
    let bs ← bloom.source.readNext .readBloomByte 1
    if Bloom.isSet (bs.headD 0) bit then bloom.blockHasBits block bits else return false

/-- One of `count` blocks from a first one on has every bit; the first that has ends the test. -/
def anyBlockHasBits (bloom : BloomFile) (bits : List Nat) (block : Nat) :
    (count : Nat) → Reading Bool
  | 0 => return false
  | count + 1 => do
    if ← bloom.blockHasBits block bits then return true
    else bloom.anyBlockHasBits bits (block + 1) count

def isMember (bloom : BloomFile) (address : Address) : Reading Bool :=
  bloom.anyBlockHasBits (Bloom.bitsOf address) 0 bloom.blockCount

end BloomFile

end AppearanceIndex
