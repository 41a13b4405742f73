import BsonWriter.Bytes.LittleEndian

/-!
The bytes of a text in UTF-8 and in UTF-16. A byte string is well-formed UTF-8
exactly when it is the encoding of some list of characters, which leaves out
overlong forms, surrogates and truncated sequences.
-/

namespace BsonWriter

/-- The UTF-8 bytes of a text. -/
def utf8 (s : String) : Bytes := s.toList.flatMap String.utf8EncodeChar

/-- Whether `bs` is well-formed UTF-8. -/
def isUtf8 (bs : Bytes) : Bool := bs.toByteArray.validateUTF8

private theorem toByteArray_inj {a b : Bytes} (h : a.toByteArray = b.toByteArray) : a = b := by
  have h' := congrArg (fun x => x.data.toList) h
  simpa using h'

/-- The well-formed byte strings are the encodings. -/
theorem isUtf8_iff (bs : Bytes) : isUtf8 bs = true ↔ ∃ s : String, bs = utf8 s := by
  rw [isUtf8, ByteArray.validateUTF8_eq_true_iff]
  constructor
  · rintro ⟨cs, h⟩
    exact ⟨String.ofList cs, by rw [utf8, String.toList_ofList]; exact toByteArray_inj h⟩
  · rintro ⟨s, rfl⟩
    exact ⟨s.toList, rfl⟩

/-- The UTF-16 code units of a character: itself, or a surrogate pair from
U+10000 on. -/
def utf16Units (c : Char) : List Nat :=
  if c.toNat < 0x10000 then [c.toNat]
  else [0xD800 + (c.toNat - 0x10000) / 0x400, 0xDC00 + (c.toNat - 0x10000) % 0x400]

/-- The UTF-16 bytes of a text, each unit little-endian. -/
def utf16 (s : String) : Bytes := (s.toList.flatMap utf16Units).flatMap (littleEndian 2)

end BsonWriter
