import BsonWriter.Proofs.Bytes.Hexadecimal
import BsonWriter.Proofs.Datum.Parts

/-!
Which texts are object ids, what is reported for the others, and the id of a datum
(`ObjectId.parse_characterized`). Lengths and positions count UTF-8 bytes, and the three ways
in which a text can fail exclude each other once the order of the checks is fixed.
-/

namespace BsonWriter

open BsonWriter.Hex

namespace ObjectId

/-- An odd number of bytes is reported before anything else. -/
theorem parse_odd {s : String} (h : (utf8 s).length % 2 = 1) :
    parse s = .error (.badLength (utf8 s).length) := by
  rw [parse, Hex.parse_odd h]

/-- Of an even number of bytes the first that is no digit is reported. -/
theorem parse_badDigit {s : String} {pre post : Bytes} {b : UInt8}
    (hs : utf8 s = pre ++ b :: post) (heven : (utf8 s).length % 2 = 0)
    (hpre : ∀ x ∈ pre, IsDigit (byteChar x)) (hb : ¬IsDigit (byteChar b)) :
    parse s = .error (.badCharacter (byteChar b) pre.length) := by
  rw [hs] at heven
  rw [parse, hs, Hex.parse_badDigit heven hpre hb]
  rfl

/-- Digits are read to the end before their number counts. -/
theorem parse_badLength {s : String} (heven : (utf8 s).length % 2 = 0)
    (h : ∀ b ∈ utf8 s, IsDigit (byteChar b)) (hlength : (utf8 s).length ≠ 24) :
    parse s = .error (.badLength (utf8 s).length) := by
  obtain ⟨out, hout, hdouble, -⟩ := parse_of_isDigit heven h
  rw [parse, hout]
  exact dif_neg (by omega)

/-- 24 digits are an id, of which they are the text in either case. -/
theorem parse_digits {s : String} (hlength : s.length = 24) (h : ∀ c ∈ s.toList, IsDigit c) :
    ∃ id, parse s = .ok id ∧ id.hex = s.toLower := by
  have hbytes := length_utf8_of_isDigit h
  obtain ⟨out, hout, hdouble, htext⟩ := parse_of_isDigit (by omega) ((forall_utf8_iff s).mpr h)
  have htwelve : out.length = 12 := by omega
  refine ⟨⟨out, htwelve⟩, ?_, ?_⟩
  · rw [parse, hout]
    exact dif_pos htwelve
  · have hlower : s.toLower.toList = s.toList.map Char.toLower := String.toList_map
    rw [hex, Hex.text, htext, ← String.toList_inj, String.toList_ofList, hlower,
      ← map_byteChar_utf8 h, List.map_map]
    rfl

/-- Every id comes from 24 digits. -/
theorem digits_of_parse {s : String} {id : ObjectId} (h : parse s = .ok id) :
    s.length = 24 ∧ ∀ c ∈ s.toList, IsDigit c := by
  by_cases hodd : (utf8 s).length % 2 = 1
  · rw [parse_odd hodd] at h
    cases h
  · have heven : (utf8 s).length % 2 = 0 := by omega
    by_cases hdigits : ∀ b ∈ utf8 s, IsDigit (byteChar b)
    · have hchars := (forall_utf8_iff s).mp hdigits
      by_cases hlength : (utf8 s).length = 24
      · exact ⟨length_utf8_of_isDigit hchars ▸ hlength, hchars⟩
      · rw [parse_badLength heven hdigits hlength] at h
        cases h
    · obtain ⟨pre, b, post, hs, hpre, hb⟩ := exists_first_fault hdigits
      rw [parse_badDigit hs heven hpre hb] at h
      cases h

end ObjectId

namespace Datum

/-- A datum inside any number of present values and wrappers, whatever their names are. -/
inductive Wraps (inner : Datum) : Datum → Prop
  | itself : Wraps inner inner
  | present {d : Datum} : Wraps inner d → Wraps inner (.present d)
  | wrapper {d : Datum} (name : String) : Wraps inner d → Wraps inner (.wrapper name d)

/-- Whatever surrounds the digits of an id, their own mark is the innermost. -/
theorem write_ofObjectId {id : ObjectId} {d : Datum} (h : Wraps (ofObjectId id) d)
    (reading : Reading) : d.write reading = Action.write .direct (.objectId id) := by
  induction h generalizing reading with
  | itself => rw [ofObjectId, write, write, writeText, Reading.inside, if_pos rfl, if_pos rfl,
      ObjectId.parse_hex]
  | present _ ih => rw [write, ih]
  | wrapper name _ ih => rw [write, ih]

theorem serialize_ofObjectId {id : ObjectId} {d : Datum} (h : Wraps (ofObjectId id) d) :
    Action.serialize d = Action.write .direct (.objectId id) := by
  rw [Action.serialize, write_ofObjectId h, Action.tracked_of_stops (Action.stops_write _)]

end Datum

namespace ObjectId

/-- A text is an id exactly if it is 24 hexadecimal digits of either case. The text of the id
is then the same in lower case, and the text of every id reads back as the id. For any other
text the number of bytes is reported if it is odd, else the first byte that is no digit with
its position, else the number of bytes. Writing the datum of an id, in present values and
wrappers or without them, is writing the id. -/
theorem parse_characterized :
    (∀ s, (∃ id, parse s = .ok id) ↔ s.length = 24 ∧ ∀ c ∈ s.toList, IsDigit c) ∧
    (∀ s id, parse s = .ok id → id.hex = s.toLower) ∧
    (∀ id, parse id.hex = .ok id) ∧
    (∀ s, (utf8 s).length % 2 = 1 → parse s = .error (.badLength (utf8 s).length)) ∧
    (∀ s pre b post, (utf8 s).length % 2 = 0 → utf8 s = pre ++ b :: post →
      (∀ x ∈ pre, IsDigit (byteChar x)) → ¬IsDigit (byteChar b) →
        parse s = .error (.badCharacter (byteChar b) pre.length)) ∧
    (∀ s, (utf8 s).length % 2 = 0 → (∀ b ∈ utf8 s, IsDigit (byteChar b)) →
      (utf8 s).length ≠ 24 → parse s = .error (.badLength (utf8 s).length)) ∧
    (∀ id d, Datum.Wraps (Datum.ofObjectId id) d →
      Action.serialize d = Action.write .direct (.objectId id) ∧
        ∀ reading, d.write reading = Action.write .direct (.objectId id)) := by
  refine ⟨fun s => ⟨fun ⟨id, h⟩ => digits_of_parse h, fun ⟨hlength, h⟩ => ?_⟩,
    fun s id h => ?_, parse_hex, fun _ => parse_odd,
    fun _ _ _ _ heven hs => parse_badDigit hs heven, fun _ => parse_badLength,
    fun id d h => ⟨Datum.serialize_ofObjectId h, Datum.write_ofObjectId h⟩⟩
  · obtain ⟨id, hid, -⟩ := parse_digits hlength h
    exact ⟨id, hid⟩
  · obtain ⟨hlength, hdigits⟩ := digits_of_parse h
    obtain ⟨id', hid', hhex⟩ := parse_digits hlength hdigits
    rw [h] at hid'
    cases hid'
    exact hhex

/-- Digits of both cases, a fault behind an even number of digits, and a text of 24 bytes
that has 23 characters. -/
theorem parse_characterized_texts :
    (∃ id, parse "0123456789abcdefABCDEF42" = .ok id ∧ id.hex = "0123456789abcdefabcdef42") ∧
      parse "00x0" = .error (.badCharacter 'x' 2) ∧
      parse "é0123456789abcdefABCDEF" = .error (.badCharacter 'Ã' 0) ∧
      parse "é0" = .error (.badLength 3) ∧ parse "00" = .error (.badLength 2) := by
  obtain ⟨hiff, hlower, -, hodd, hdigit, hlength, -⟩ := parse_characterized
  have hdigits : "0123456789abcdefABCDEF42".toList.all (fun c => decide (IsDigit c)) = true := by
    decide +kernel
  simp only [List.all_eq_true, decide_eq_true_eq] at hdigits
  obtain ⟨id, hid⟩ := (hiff "0123456789abcdefABCDEF42").mpr ⟨by decide +kernel, hdigits⟩
  exact ⟨⟨id, hid, (hlower _ id hid).trans (by decide +kernel)⟩,
    hdigit "00x0" [48, 48] 120 [48] (by decide +kernel) (by decide +kernel) (by decide +kernel)
      (by decide +kernel),
    hdigit "é0123456789abcdefABCDEF" [] 195 _ (by decide +kernel) rfl (by decide +kernel)
      (by decide +kernel),
    hodd "é0" (by decide +kernel),
    hlength "00" (by decide +kernel) (by decide +kernel) (by decide +kernel)⟩

end ObjectId

end BsonWriter
