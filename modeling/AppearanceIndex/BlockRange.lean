import AppearanceIndex.Text.Decimal

/-!
# Block ranges

A chunk and its filter cover an inclusive range of block numbers and are named for it. The name is
`first-last`; file names pad both numbers to nine digits (`BlockRange.fileStem`).
`BlockRange.parse?` reads a bare name, a file name or a path: what stands before the last slash or
backslash and one `.bin` or `.bloom` at the end are ignored.
-/

namespace AppearanceIndex

/-- An inclusive range of block numbers. -/
structure BlockRange where
  first : UInt64
  last : UInt64
deriving DecidableEq, Inhabited

namespace BlockRange

def contains (r : BlockRange) (block : UInt64) : Bool := r.first ≤ block && block ≤ r.last

/-- Each range begins no later than the other ends. -/
def intersects (r s : BlockRange) : Bool := r.first ≤ s.last && s.first ≤ r.last

def earlierThan (r : BlockRange) (block : UInt64) : Bool := r.last < block

def laterThan (r : BlockRange) (block : UInt64) : Bool := block < r.first

/-- By first block, then by last. -/
def cmp (r s : BlockRange) : Ordering :=
  (compare r.first.toNat s.first.toNat).then (compare r.last.toNat s.last.toNat)

instance : Ord BlockRange := ⟨cmp⟩

/-! ## Text -/

def chars (r : BlockRange) : List Char :=
  Decimal.digits r.first.toNat ++ '-' :: Decimal.digits r.last.toNat

def text (r : BlockRange) : String := String.ofList r.chars

def stemChars (r : BlockRange) : List Char :=
  Decimal.paddedDigits 9 r.first.toNat ++ '-' :: Decimal.paddedDigits 9 r.last.toNat

/-- The file name without its extension: both numbers padded to nine digits. -/
def fileStem (r : BlockRange) : String := String.ofList r.stemChars

/-- A character that ends a directory name. -/
def isSeparator (c : Char) : Bool := c = '/' || c = '\\'

/-- What follows the last separator. -/
def baseName (cs : List Char) : List Char := (cs.reverse.takeWhile (!isSeparator ·)).reverse

def stripEnding? (ending cs : List Char) : Option (List Char) :=
  if ending.isSuffixOf cs then some (cs.take (cs.length - ending.length)) else none

/-- The name without one `.bin` or `.bloom` at its end. -/
def stripExtension (cs : List Char) : List Char :=
  ((stripEnding? ['.', 'b', 'i', 'n'] cs).or
    (stripEnding? ['.', 'b', 'l', 'o', 'o', 'm'] cs)).getD cs

/-- The range of two bounds below `2 ^ 64` in order. -/
def ofBounds? (first last : Nat) : Option BlockRange :=
  if first ≤ last then some ⟨UInt64.ofNat first, UInt64.ofNat last⟩ else none

/-- Reads two numbers around the first dash. -/
def parseBare? (cs : List Char) : Option BlockRange :=
  match cs.dropWhile (· ≠ '-') with
  | [] => none
  | _ :: rest => do
    let first ← Decimal.unsigned? UInt64.size (cs.takeWhile (· ≠ '-'))
    let last ← Decimal.unsigned? UInt64.size rest
    ofBounds? first last

def parseChars? (cs : List Char) : Option BlockRange := parseBare? (stripExtension (baseName cs))

/-- Reads a name, a file name or a path. -/
def parse? (s : String) : Option BlockRange := parseChars? s.toList

end BlockRange

end AppearanceIndex
