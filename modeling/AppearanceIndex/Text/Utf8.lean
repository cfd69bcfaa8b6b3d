import AppearanceIndex.Bytes

/-!
# Text as bytes

Files hold text in UTF-8. `Utf8.encode` writes it character by character, `Utf8.decode?` refuses
bytes that no text is written as.
-/

namespace AppearanceIndex.Utf8

def encode (cs : List Char) : Bytes := cs.flatMap String.utf8EncodeChar

def decode? (bs : Bytes) : Option String := String.fromUTF8? bs.toByteArray

end AppearanceIndex.Utf8
