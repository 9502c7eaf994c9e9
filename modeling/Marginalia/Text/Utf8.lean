import Marginalia.Text.Basic

/-!
The UTF-8 form of texts, and reading it back.
-/

namespace Marginalia

abbrev Bytes := List UInt8

namespace Text

def bytes (t : Text) : Bytes := t.flatMap String.utf8EncodeChar

def decode? (b : Bytes) : Option Text := b.toByteArray.utf8Decode?.map Array.toList

theorem decode?_bytes (t : Text) : decode? t.bytes = some t := by
  have h : t.bytes.toByteArray = t.utf8Encode := rfl
  rw [decode?, h, List.utf8Decode?_utf8Encode]
  rfl

end Text

end Marginalia
