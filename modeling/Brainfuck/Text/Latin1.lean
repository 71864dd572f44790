/-! Bytes as the first 256 characters. -/

namespace Brainfuck.Text

/-- The character that a byte stands for. -/
def ofByte (b : UInt8) : Char := Char.ofNat b.toNat

/-- The byte that stands for a character, if one does. -/
def toByte? (c : Char) : Option UInt8 :=
  if c.toNat < 256 then some (UInt8.ofNat c.toNat) else none

def ofBytes (bytes : List UInt8) : List Char := bytes.map ofByte

/-- The bytes of a text all of whose characters have one. -/
def toBytes? (text : List Char) : Option (List UInt8) := text.mapM toByte?

end Brainfuck.Text
