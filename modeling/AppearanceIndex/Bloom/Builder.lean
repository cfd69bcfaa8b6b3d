import AppearanceIndex.Bloom.Bits
import AppearanceIndex.Bloom.Header
import AppearanceIndex.Chunk.Builder

/-!
# Building bloom filters

A `BloomBuilder` fills one block after another: when the last one has received as many addresses
as a block may hold, the next address begins a new block. `BloomBuilder.build` lays the blocks out
as a bloom file.
-/

namespace AppearanceIndex

/-- The bits of a block and how many addresses were inserted into it. -/
structure BloomBlock where
  inserted : Nat
  bits : Vector UInt8 Bloom.bitsetWidth

namespace BloomBlock

def empty : BloomBlock := ⟨0, Vector.replicate Bloom.bitsetWidth 0⟩

def setBit (bits : Vector UInt8 Bloom.bitsetWidth) (bit : Nat) :
    Vector UInt8 Bloom.bitsetWidth :=
  ⟨bits.toArray.modify (Bloom.byteIndex bit) (· ||| Bloom.bitMask bit), by simp⟩

def insert (b : BloomBlock) (address : Address) : BloomBlock :=
  ⟨b.inserted + 1, (Bloom.bitsOf address).foldl setBit b.bits⟩

def toBytes (b : BloomBlock) : Bytes := Bytes.littleEndian 4 b.inserted ++ b.bits.toList

end BloomBlock

/-- Blocks in the making, the last one first. -/
structure BloomBuilder where
  capacity : Nat
  newest : List BloomBlock

namespace BloomBuilder

/-- The number of addresses that the indexer puts into one block. -/
def maxAddresses : Nat := 50000

/-- A builder without blocks that puts `capacity` addresses into each. -/
def withCapacity (capacity : Nat) : BloomBuilder := ⟨capacity, []⟩

/-- Inserts an address into the last block, or into a new one when that is full. -/
def insert (b : BloomBuilder) (address : Address) : BloomBuilder :=
  match b.newest with
  | block :: older =>
    if block.inserted < b.capacity then ⟨b.capacity, block.insert address :: older⟩
    else ⟨b.capacity, BloomBlock.empty.insert address :: block :: older⟩
  | [] => ⟨b.capacity, [BloomBlock.empty.insert address]⟩

def ofList (capacity : Nat) (addresses : List Address) : BloomBuilder :=
  addresses.foldl insert (withCapacity capacity)

/-- The blocks in the order in which they were begun. -/
def blocks (b : BloomBuilder) : List BloomBlock := b.newest.reverse

def build (b : BloomBuilder) : Bytes :=
  BloomHeader.toBytes ⟨BloomHeader.bloomMagic, Vector.replicate 32 0⟩
    ++ Bytes.littleEndian 4 b.blocks.length ++ b.blocks.flatMap BloomBlock.toBytes

end BloomBuilder

/-- The filter over exactly the addresses of a chunk. -/
def ChunkBuilder.bloom (b : ChunkBuilder) : BloomBuilder :=
  BloomBuilder.ofList BloomBuilder.maxAddresses b.addresses

end AppearanceIndex
