import AppearanceIndex.BlockRange
import AppearanceIndex.Chunk.Record
import AppearanceIndex.Json.Reader

/-!
# The JSON form of addresses, ranges and records

An address is a string, a range an array of its bounds, a record an object whose names are given
here once for writing and for reading. Written text holds no blanks. A row of the appearance file
is an appearance with its address and the bounds of its chunk, so it also reads back as a
`DecodedAppearance`.
-/

namespace AppearanceIndex

namespace Json

/-- A string of characters that need no escape, between quotes. -/
def quoted (cs : List Char) : List Char := '"' :: cs ++ ['"']

def separated : List (List Char) → List Char
  | [] => []
  | [text] => text
  | text :: texts => text ++ ',' :: separated texts

def objectText (members : List (String × List Char)) : List Char :=
  '\x7b' :: separated (members.map fun (name, value) => quoted name.toList ++ ':' :: value)
    ++ ['\x7d']

/-- A 32-bit field. -/
def word? (value : Json) : Option UInt32 := (value.unsigned? UInt32.size).map UInt32.ofNat

/-- A 64-bit field. -/
def longWord? (value : Json) : Option UInt64 := (value.unsigned? UInt64.size).map UInt64.ofNat

end Json

namespace Address

def jsonText (a : Address) : List Char := Json.quoted a.chars

def ofJson? (value : Json) : Option Address := value.text?.bind parseChars?

end Address

namespace BlockRange

/-- The range as a JSON array. -/
def jsonText (r : BlockRange) : List Char :=
  '[' :: Decimal.digits r.first.toNat ++ ',' :: Decimal.digits r.last.toNat ++ [']']

/-- Reads a range from a JSON array of two bounds, in whatever order they are. -/
def ofJson? : Json → Option BlockRange
  | .array [first, last] => do return ⟨← first.longWord?, ← last.longWord?⟩
  | _ => none

end BlockRange

namespace AddressRecord

def jsonText (r : AddressRecord) : List Char :=
  Json.objectText [("address", r.address.jsonText), ("offset", Decimal.digits r.offset.toNat),
    ("count", Decimal.digits r.count.toNat)]

def ofJson? (value : Json) : Option AddressRecord :=
  match value.fields? ["address", "offset", "count"] with
  | some [address, offset, count] => do
    return ⟨← Address.ofJson? address, ← offset.word?, ← count.word?⟩
  | _ => none

end AddressRecord

namespace Appearance

def jsonMembers (a : Appearance) : List (String × List Char) :=
  [("blockNumber", Decimal.digits a.block.toNat),
    ("transactionIndex", Decimal.digits a.transaction.toNat)]

def jsonText (a : Appearance) : List Char := Json.objectText a.jsonMembers

def ofJson? (value : Json) : Option Appearance :=
  match value.fields? ["blockNumber", "transactionIndex"] with
  | some [block, transaction] => do return ⟨← block.word?, ← transaction.word?⟩
  | _ => none

end Appearance

namespace DecodedAppearance

def jsonMembers (d : DecodedAppearance) : List (String × List Char) :=
  ("address", d.address.jsonText) :: d.appearance.jsonMembers

def jsonText (d : DecodedAppearance) : List Char := Json.objectText d.jsonMembers

/-- The appearance as a row of the file for a chunk. -/
def rowText (range : BlockRange) (d : DecodedAppearance) : List Char :=
  Json.objectText (d.jsonMembers ++
    [("blockRangeStart", Decimal.digits range.first.toNat),
      ("blockRangeEnd", Decimal.digits range.last.toNat)])

def ofJson? (value : Json) : Option DecodedAppearance :=
  match value.fields? ["address", "blockNumber", "transactionIndex"] with
  | some [address, block, transaction] => do
    return ⟨← Address.ofJson? address, ⟨← block.word?, ← transaction.word?⟩⟩
  | _ => none

end DecodedAppearance

end AppearanceIndex
