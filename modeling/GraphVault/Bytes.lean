/-!
# Byte strings

Byte strings and the UTF-8 text they may hold: reading accepts exactly the bytes that some text
is written as.
-/

namespace GraphVault

/-- Byte strings, as files and messages hold them. -/
abbrev Bytes := List UInt8

namespace Bytes

/-- The UTF-8 bytes of a text. -/
def ofText (s : String) : Bytes := s.toByteArray.data.toList

/-- The text of a byte string that is valid UTF-8. -/
def text? (bytes : Bytes) : Option String := String.fromUTF8? ⟨bytes.toArray⟩

theorem text?_ofText (s : String) : text? (ofText s) = some s := by
  simp [text?, ofText, String.fromUTF8?, s.isValidUTF8, String.fromUTF8]

theorem ofText_of_text? {bytes : Bytes} {s : String} (h : text? bytes = some s) :
    ofText s = bytes := by
  simp only [text?, String.fromUTF8?] at h
  split at h
  · simp only [Option.some.injEq] at h
    subst h
    simp [ofText, String.fromUTF8]
  · simp at h

end Bytes

end GraphVault
