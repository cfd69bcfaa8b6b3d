import AppearanceIndex.Hex

/-!
# Account addresses

An address is twenty bytes. It is kept as the number that its bytes spell, most significant first,
so that the order of numbers is the bytewise order of addresses. Its text is `0x` and forty
lower-case digits; `Address.parse?` accepts digits of either case and nothing else.
-/

namespace AppearanceIndex

/-- A twenty-byte account address, as the big-endian number of its bytes. -/
structure Address where
  toNat : Nat
  isLt : toNat < Bytes.capacity 20
deriving DecidableEq

namespace Address

def width : Nat := 20

instance : LT Address := ⟨fun a b => a.toNat < b.toNat⟩
instance : LE Address := ⟨fun a b => a.toNat ≤ b.toNat⟩
instance (a b : Address) : Decidable (a < b) := inferInstanceAs (Decidable (a.toNat < b.toNat))
instance (a b : Address) : Decidable (a ≤ b) := inferInstanceAs (Decidable (a.toNat ≤ b.toNat))
instance : Ord Address := ⟨fun a b => compare a.toNat b.toNat⟩

/-- The address whose number is the low 160 bits of `n`. -/
def ofNat (n : Nat) : Address := ⟨n % Bytes.capacity 20, Nat.mod_lt _ (by decide)⟩

instance : Inhabited Address := ⟨ofNat 0⟩

def toBytes (a : Address) : Bytes := Bytes.bigEndian width a.toNat

/-- The address of twenty bytes; of a longer string, of its last twenty. -/
def ofBytes (bs : Bytes) : Address := ofNat (Bytes.ofBigEndian bs)

/-- The address of exactly twenty bytes. -/
def ofBytes? (bs : Bytes) : Option Address :=
  if bs.length = width then some (ofBytes bs) else none

def chars (a : Address) : List Char := '0' :: 'x' :: Hex.encode a.toBytes

/-- `0x` and forty lower-case digits. -/
def text (a : Address) : String := String.ofList a.chars

/-- Reads `0x` and forty digits of either case. -/
def parseChars? : List Char → Option Address
  | '0' :: 'x' :: digits => (Hex.decode? digits).bind ofBytes?
  | _ => none

def parse? (s : String) : Option Address := parseChars? s.toList

/-- The five big-endian words of four bytes each. -/
def words (a : Address) : List Nat := (a.toBytes.blocks 4).map Bytes.ofBigEndian

def rotateLeft (w : UInt32) (k : UInt32) : UInt32 := (w <<< k) ||| (w >>> (32 - k))

/-- Sample addresses, spread over the whole space; distinct indices give distinct addresses. -/
def ofIndex (i : UInt32) : Address :=
  ofBytes (Bytes.bigEndian 4 (i * 2654435761).toNat ++ Bytes.bigEndian 4 (rotateLeft i 13).toNat
    ++ Bytes.bigEndian 4 (~~~i).toNat ++ Bytes.bigEndian 4 0 ++ Bytes.bigEndian 4 i.toNat)

end Address

end AppearanceIndex
