import AppearanceIndex.Address

/-!
# Bits of a bloom filter

A filter is made of blocks of `2 ^ 20` bits. An address sets five of them, one for each of its
big-endian words (`bitsOf`). Within a block, bytes are stored in reverse order relative to the
numbering of bits: bit 0 is the lowest of the last byte.
-/

namespace AppearanceIndex.Bloom

def blockBits : Nat := 1048576

/-- The number of bytes of a block's bits. -/
def bitsetWidth : Nat := 131072

/-- The five bits of an address. -/
def bitsOf (address : Address) : List Nat := address.words.map (· % blockBits)

def byteIndex (bit : Nat) : Nat := bitsetWidth - 1 - bit / 8

def bitMask (bit : Nat) : UInt8 := 1 <<< UInt8.ofNat (bit % 8)

def isSet (byte : UInt8) (bit : Nat) : Bool := byte &&& bitMask bit ≠ 0

end AppearanceIndex.Bloom
