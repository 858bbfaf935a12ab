/-!
Bytes and text. Bytes that are not UTF-8 are read as Latin-1, one character a byte.
-/

namespace CodeAtlas.Text

/-- The text whose UTF-8 encoding the bytes are. -/
def ofUtf8? (bytes : ByteArray) : Option String := String.fromUTF8? bytes

/-- The text of the bytes when each is the number of a character. -/
def ofLatin1 (bytes : ByteArray) : String :=
  .ofList (bytes.toList.map fun b => Char.ofNat b.toNat)

/-- The text of any bytes. -/
def decode (bytes : ByteArray) : String := (ofUtf8? bytes).getD (ofLatin1 bytes)

/-- The UTF-8 encoding of a text. -/
def encode (s : String) : ByteArray := s.toUTF8

end CodeAtlas.Text
