import AppearanceIndex.Chunk.Record
import AppearanceIndex.Total

/-!
# Building chunks

A `ChunkBuilder` collects appearances by address: addresses ascending, the appearances of each in
the order in which they were added. `ChunkBuilder.build` lays them out as a chunk file whose spans
follow one another.
-/

namespace AppearanceIndex

/-- Appearances by address, in ascending order of addresses. -/
structure ChunkBuilder where
  entries : List (Address × List Appearance)

namespace ChunkBuilder

def empty : ChunkBuilder := ⟨[]⟩

/-- Adds an appearance behind those of its address. -/
def addTo (address : Address) (appearance : Appearance) :
    List (Address × List Appearance) → List (Address × List Appearance)
  | [] => [(address, [appearance])]
  | (a, apps) :: entries =>
    if address < a then (address, [appearance]) :: (a, apps) :: entries
    else if address = a then (a, apps ++ [appearance]) :: entries
    else (a, apps) :: addTo address appearance entries

def add (b : ChunkBuilder) (decoded : DecodedAppearance) : ChunkBuilder :=
  ⟨addTo decoded.address decoded.appearance b.entries⟩

def ofList (decoded : List DecodedAppearance) : ChunkBuilder := decoded.foldl add empty

/-- The addresses, ascending. -/
def addresses (b : ChunkBuilder) : List Address := b.entries.map Prod.fst

/-- The appearances of an address in the order in which they were added. -/
def appearancesOf (b : ChunkBuilder) (address : Address) : List Appearance :=
  ((b.entries.find? (·.1 = address)).map Prod.snd).getD []

def addressCount (b : ChunkBuilder) : Nat := b.entries.length

def appearanceCount (b : ChunkBuilder) : Nat := total (·.2.length) b.entries

def header (b : ChunkBuilder) : ChunkHeader where
  magic := ChunkHeader.chunkMagic
  hash := Vector.replicate 32 0
  addressCount := UInt32.ofNat b.addressCount
  appearanceCount := UInt32.ofNat b.appearanceCount

/-- The address table, the first span beginning at `offset`. -/
def recordsFrom (offset : Nat) : List (Address × List Appearance) → List AddressRecord
  | [] => []
  | (address, apps) :: entries =>
    ⟨address, UInt32.ofNat offset, UInt32.ofNat apps.length⟩
      :: recordsFrom (offset + apps.length) entries

def records (b : ChunkBuilder) : List AddressRecord := recordsFrom 0 b.entries

def build (b : ChunkBuilder) : Bytes :=
  b.header.toBytes ++ b.records.flatMap AddressRecord.toBytes
    ++ (b.entries.flatMap Prod.snd).flatMap Appearance.toBytes

end ChunkBuilder

end AppearanceIndex
