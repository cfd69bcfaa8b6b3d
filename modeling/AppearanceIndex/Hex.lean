import AppearanceIndex.Bytes

/-!
# Hexadecimal text

`Hex.encode` writes two lower-case digits per byte, `Hex.decode?` reads digits of either case and
refuses anything else, an odd number of digits included.
-/

namespace AppearanceIndex.Hex

/-- The digit of a value below sixteen, in lower case. -/
def digit (n : Nat) : Char :=
  if n < 10 then Char.ofNat (48 + n) else Char.ofNat (87 + n)

/-- The value of a hexadecimal digit of either case. -/
def value? (c : Char) : Option Nat :=
  if '0' ≤ c ∧ c ≤ '9' then some (c.toNat - 48)
  else if 'a' ≤ c ∧ c ≤ 'f' then some (c.toNat - 87)
  else if 'A' ≤ c ∧ c ≤ 'F' then some (c.toNat - 55)
  else none

/-- Two digits per byte. -/
def encode : Bytes → List Char
  | [] => []
  | b :: bs => digit (b.toNat / 16) :: digit (b.toNat % 16) :: encode bs

/-- The bytes that the digits spell, if all are digits and they come in pairs. -/
def decode? : List Char → Option Bytes
  | [] => some []
  | [_] => none
  | hi :: lo :: cs => do
    let h ← value? hi
    let l ← value? lo
    let bs ← decode? cs
    return UInt8.ofNat (16 * h + l) :: bs

/-- A number as `0x` and the digits of its low `width` bytes. -/
def prefixed (width n : Nat) : String :=
  String.ofList ('0' :: 'x' :: encode (Bytes.bigEndian width n))

end AppearanceIndex.Hex
