import AppearanceIndex.Text.Printable

/-!
# Quoted text

A string between double quotes in which everything that would not show, or would merge with its
neighbour, is escaped: `Quoted.encode`. Error messages quote rejected names this way.
-/

namespace AppearanceIndex.Quoted

/-- A code point in braces, in lower-case hexadecimal without leading zeros. -/
def codePoint (c : Char) : List Char := '\\' :: 'u' :: '\x7b' :: Nat.toDigits 16 c.toNat ++ ['\x7d']

/-- One character as it stands between the quotes. -/
def escape (c : Char) : List Char :=
  if c = '\x00' then ['\\', '0']
  else if c = '\t' then ['\\', 't']
  else if c = '\n' then ['\\', 'n']
  else if c = '\r' then ['\\', 'r']
  else if c = '\\' then ['\\', '\\']
  else if c = '"' then ['\\', '"']
  else if Printable.extendsGrapheme c || !Printable.isPrintable c then codePoint c
  else [c]

def encode (s : String) : String :=
  String.ofList ('"' :: s.toList.flatMap escape ++ ['"'])

end AppearanceIndex.Quoted
