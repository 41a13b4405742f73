import BsonWriter.Proofs.Datum.ObjectIds

/-!
What is said of a text with a character that is no hexadecimal digit. Texts are read byte by
byte, but digits are single bytes, so the first byte that is no digit is the first byte of the
first character that is none, and its position is that of the character
(`ObjectId.parse_of_first_fault`). What is shown is the character with the code of this byte
(`Hex.shownAs`): the character of the text itself within ASCII, and outside of it another one
with the exception of U+00C3 (`ObjectId.fault_shown_by_first_byte`).
-/

namespace BsonWriter

open BsonWriter.Hex

namespace Hex

/-- What is shown of a character that is no digit. -/
def shownAs (c : Char) : Char := byteChar (leadByte c)

theorem toNat_byteChar (b : UInt8) : (byteChar b).toNat = b.toNat :=
  forall_byte (p := fun b => (byteChar b).toNat = b.toNat) (by decide +kernel) b

theorem shownAs_eq_iff (c : Char) : shownAs c = c ↔ c.toNat < 128 ∨ c = 'Ã' := by
  rw [← Char.toNat_inj, ← Char.toNat_inj, shownAs, toNat_byteChar, show 'Ã'.toNat = 195 from rfl]
  obtain ⟨hascii, hlead⟩ | ⟨hcode, -, hlead⟩ := toNat_leadByte c
  · exact iff_of_true hlead (.inl hascii)
  · rw [hlead]
    omega

end Hex

namespace ObjectId

/-- Of an even number of bytes the first character that is no digit is reported, with the
bytes before it counted. -/
theorem parse_of_first_fault {s : String} {pre post : List Char} {d : Char}
    (hs : s.toList = pre ++ d :: post) (heven : (utf8 s).length % 2 = 0)
    (hpre : ∀ x ∈ pre, IsDigit x) (hd : ¬IsDigit d) :
    parse s = .error (.badCharacter (shownAs d) (utf8 (String.ofList pre)).length) := by
  obtain ⟨rest, hrest⟩ := utf8EncodeChar_eq_cons d
  have hfront : ∀ b ∈ utf8 (String.ofList pre), IsDigit (byteChar b) :=
    (forall_utf8_iff _).mpr (by rwa [String.toList_ofList])
  have hbytes : utf8 s = utf8 (String.ofList pre) ++
      leadByte d :: (rest ++ utf8 (String.ofList post)) := by
    simp only [utf8, hs, String.toList_ofList, List.flatMap_append, List.flatMap_cons, hrest,
      List.cons_append]
  exact parse_badDigit hbytes heven hfront ((isDigit_leadByte_iff d).not.mpr hd)

/-- A text for which a character is reported has an even number of bytes and one that is no
digit. -/
theorem of_parse_badCharacter {s : String} {c : Char} {index : Nat}
    (h : parse s = .error (.badCharacter c index)) :
    (utf8 s).length % 2 = 0 ∧ ¬∀ x ∈ s.toList, IsDigit x := by
  have heven : (utf8 s).length % 2 = 0 := by
    by_contra hodd
    rw [parse_odd (by omega)] at h
    cases h
  refine ⟨heven, fun hdigits => ?_⟩
  by_cases hlength : (utf8 s).length = 24
  · obtain ⟨id, hid, -⟩ := parse_digits (by rw [← length_utf8_of_isDigit hdigits, hlength]) hdigits
    rw [hid] at h
    cases h
  · rw [parse_badLength heven ((forall_utf8_iff s).mpr hdigits) hlength] at h
    cases h

/-- Of a text for which a character is reported, the position is where its first character that
is no digit begins, counted in bytes, and all characters before it are digits. What is shown has
the code of the first byte. It is no digit either, but it is the character of the text only
within ASCII and for U+00C3. -/
theorem fault_shown_by_first_byte {s : String} {c : Char} {index : Nat}
    (h : parse s = .error (.badCharacter c index)) :
    ∃ pre d post, s.toList = pre ++ d :: post ∧ index = (utf8 (String.ofList pre)).length ∧
      (∀ x ∈ pre, IsDigit x) ∧ ¬IsDigit d ∧ c = shownAs d ∧ ¬IsDigit c ∧
      (c = d ↔ d.toNat < 128 ∨ d = 'Ã') := by
  obtain ⟨heven, hfault⟩ := of_parse_badCharacter h
  obtain ⟨pre, d, post, hs, hpre, hd⟩ := exists_first_fault hfault
  rw [parse_of_first_fault hs heven hpre hd] at h
  cases h
  exact ⟨pre, d, post, hs, rfl, hpre, hd, rfl, (isDigit_leadByte_iff d).not.mpr hd,
    shownAs_eq_iff d⟩

/-- Behind two digits, a character of two bytes is shown as another one that the text does not
have, and U+00C3 as itself. -/
theorem fault_shown_by_first_byte_accents :
    (parse "00é" = .error (.badCharacter 'Ã' 2) ∧ ∃ pre d post,
      "00é".toList = pre ++ d :: post ∧ 2 = (utf8 (String.ofList pre)).length ∧ 'Ã' ≠ d) ∧
    parse "00Ã" = .error (.badCharacter 'Ã' 2) ∧ ∃ pre d post,
      "00Ã".toList = pre ++ d :: post ∧ 2 = (utf8 (String.ofList pre)).length ∧ 'Ã' = d := by
  have hother : parse "00é" = .error (.badCharacter 'Ã' 2) := by decide +kernel
  have hsame : parse "00Ã" = .error (.badCharacter 'Ã' 2) := by decide +kernel
  obtain ⟨pre, d, post, hs, hindex, -⟩ := fault_shown_by_first_byte hother
  obtain ⟨pre', d', post', hs', hindex', -, hd', -, -, hnamed⟩ := fault_shown_by_first_byte hsame
  have habsent : 'Ã' ∉ "00é".toList := by decide +kernel
  have hmem : d' ∈ ['0', '0', 'Ã'] := by
    rw [show ['0', '0', 'Ã'] = "00Ã".toList by decide +kernel, hs']
    exact List.mem_append_right _ List.mem_cons_self
  refine ⟨⟨hother, pre, d, post, hs, hindex, ?_⟩, hsame, pre', d', post', hs', hindex', ?_⟩
  · rintro rfl
    exact habsent (hs ▸ List.mem_append_right _ List.mem_cons_self)
  · refine hnamed.mpr (.inr ?_)
    simp only [List.mem_cons, List.not_mem_nil, or_false] at hmem
    rcases hmem with rfl | rfl | rfl
    · exact absurd (by decide +kernel) hd'
    · exact absurd (by decide +kernel) hd'
    · rfl

end ObjectId

end BsonWriter
