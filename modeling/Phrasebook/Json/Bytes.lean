import Phrasebook.Json.Parser

/-!
# JSON in bytes

JSON is kept in files as UTF-8. A string in a file may also hold bytes that encode no character:
it then names no text, so that it can be passed over but not be used. Anywhere else such bytes
are refused.

Bytes that encode a text are read as the text is (`ofBytes?_toUTF8`).
-/

namespace Phrasebook

namespace Json

/-- What is read for a byte that encodes no character: half of a surrogate pair, which names no
character either. What stands around the half keeps it apart from a backslash or another half
next to the byte, and is no JSON outside a string. -/
def strayChars : List Char := "\ufffd\\ud800\ufffd".toList

/-- The characters that are read for the bytes from a position on. -/
def charsFrom (bytes : ByteArray) (position : Nat) : List Char :=
  if position < bytes.size then
    match bytes.utf8DecodeChar? position with
    | some c => c :: charsFrom bytes (position + c.utf8Size)
    | none => strayChars ++ charsFrom bytes (position + 1)
  else []
termination_by bytes.size - position
decreasing_by
  · have := c.utf8Size_pos
    omega
  · omega

/-- The value that is written in some bytes. -/
def ofBytes? (bytes : ByteArray) : Option Json :=
  match String.fromUTF8? bytes with
  | some text => ofText? text
  | none => ofChars? (charsFrom bytes 0)

/-- The bytes of a text are read as the text is. -/
theorem ofBytes?_toUTF8 (text : String) : ofBytes? text.toUTF8 = ofText? text := by
  have : String.fromUTF8? text.toUTF8 = some text := by
    rw [String.fromUTF8?, String.toUTF8_eq_toByteArray, dif_pos text.isValidUTF8]
    rfl
  rw [ofBytes?, this]

end Json

end Phrasebook
