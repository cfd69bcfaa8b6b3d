import AppearanceIndex.Chunk.Header

/-!
# Records of a chunk

An `AddressRecord` names an address and the span of the appearance table that belongs to it, an
`Appearance` is a transaction by block and index, and a `DecodedAppearance` is an appearance
together with its address. Tables are read record by record; a tail too short for a record is
ignored.
-/

namespace AppearanceIndex

/-- An entry of the address table. The span counts appearances, not bytes. -/
structure AddressRecord where
  address : Address
  offset : UInt32
  count : UInt32
deriving DecidableEq, Inhabited

namespace AddressRecord

def ofBytes (bs : Bytes) : AddressRecord where
  address := Address.ofBytes (bs.take Address.width)
  offset := UInt32.ofNat (bs.wordAt 20 4)
  count := UInt32.ofNat (bs.wordAt 24 4)

def toBytes (r : AddressRecord) : Bytes :=
  r.address.toBytes ++ Bytes.littleEndian 4 r.offset.toNat ++ Bytes.littleEndian 4 r.count.toNat

/-- Reads consecutive records, each field by field. -/
def decodeAll (bs : Bytes) : List AddressRecord :=
  (bs.blocks ChunkHeader.addressRecordWidth).map fun block =>
    { address := Address.ofBytes (block.take Address.width)
      offset := UInt32.ofNat (block.wordAt 20 4)
      count := UInt32.ofNat (block.wordAt 24 4) }

/-- A record among others is read as one by itself. -/
theorem decodeAll_eq_map (bs : Bytes) :
    decodeAll bs = (bs.blocks ChunkHeader.addressRecordWidth).map ofBytes := rfl

theorem length_decodeAll (bs : Bytes) :
    (decodeAll bs).length = bs.length / ChunkHeader.addressRecordWidth := by
  simp [decodeAll, Bytes.length_blocks _ bs (show 0 < ChunkHeader.addressRecordWidth by decide)]

/-- The exclusive end of the span. -/
def spanEnd (r : AddressRecord) : Nat := r.offset.toNat + r.count.toNat

/-- The span lies inside the appearance table. -/
def Fits (r : AddressRecord) (h : ChunkHeader) : Prop := r.spanEnd ≤ h.appearanceCount.toNat

instance (r : AddressRecord) (h : ChunkHeader) : Decidable (r.Fits h) :=
  inferInstanceAs (Decidable (_ ≤ _))

def spanError (r : AddressRecord) (h : ChunkHeader) (range : BlockRange) : Error :=
  h.spanOutside range r.offset.toNat r.count.toNat r.address

def location (h : ChunkHeader) (position : Nat) : Nat :=
  h.addressTableStart + position * ChunkHeader.addressRecordWidth

def spanStart (r : AddressRecord) (h : ChunkHeader) : Nat :=
  h.appearanceTableStart + r.offset.toNat * ChunkHeader.appearanceWidth

def spanBytes (r : AddressRecord) : Nat := r.count.toNat * ChunkHeader.appearanceWidth

end AddressRecord

/-- A transaction in which an address appears. -/
structure Appearance where
  block : UInt32
  transaction : UInt32
deriving DecidableEq, Inhabited

namespace Appearance

def ofBytes (bs : Bytes) : Appearance where
  block := UInt32.ofNat (bs.wordAt 0 4)
  transaction := UInt32.ofNat (bs.wordAt 4 4)

def toBytes (a : Appearance) : Bytes :=
  Bytes.littleEndian 4 a.block.toNat ++ Bytes.littleEndian 4 a.transaction.toNat

/-- Reads consecutive appearances. -/
def decodeAll (bs : Bytes) : List Appearance :=
  (bs.blocks ChunkHeader.appearanceWidth).map ofBytes

theorem length_decodeAll (bs : Bytes) :
    (decodeAll bs).length = bs.length / ChunkHeader.appearanceWidth := by
  simp [decodeAll, Bytes.length_blocks _ bs (show 0 < ChunkHeader.appearanceWidth by decide)]

/-- By block, then by transaction. -/
def cmp (a b : Appearance) : Ordering :=
  (compare a.block.toNat b.block.toNat).then (compare a.transaction.toNat b.transaction.toNat)

def le (a b : Appearance) : Bool := (cmp a b).isLE

end Appearance

structure DecodedAppearance where
  address : Address
  appearance : Appearance
deriving DecidableEq, Inhabited

namespace DecodedAppearance

/-- By address, then by appearance. -/
def cmp (a b : DecodedAppearance) : Ordering :=
  (compare a.address.toNat b.address.toNat).then (a.appearance.cmp b.appearance)

def le (a b : DecodedAppearance) : Bool := (cmp a b).isLE

end DecodedAppearance

end AppearanceIndex
