import BsonWriter.Value.ObjectId

/-!
Hexadecimal text reads back as the bytes it was written for (`Hex.parse_text`), and so does
the text of an object id (`ObjectId.parse_hex`). Any other text is read if its bytes are an
even number of digits of either case (`Hex.parse_of_isDigit`), and these are its characters
(`Hex.forall_utf8_iff`); otherwise the first fault is found (`Hex.parse_badDigit`).
-/

namespace BsonWriter

namespace Hex

/-- The ASCII byte of a digit. -/
def digitByte (n : Nat) : UInt8 := UInt8.ofNat (digit n).toNat

theorem utf8_digit {n : Nat} (h : n < 16) : String.utf8EncodeChar (digit n) = [digitByte n] :=
  have hall : ∀ n : Fin 16, String.utf8EncodeChar (digit n) = [digitByte n] := by decide +kernel
  hall ⟨n, h⟩

theorem digitValue?_digit {n : Nat} (h : n < 16) :
    digitValue? (digitByte n) = some (UInt8.ofNat n) :=
  have hall : ∀ n : Fin 16, digitValue? (digitByte n) = some (UInt8.ofNat n) := by decide +kernel
  hall ⟨n, h⟩

/-- A byte is put together from its digits. -/
theorem ofNat_halves (b : UInt8) :
    16 * UInt8.ofNat (b.toNat / 16) + UInt8.ofNat (b.toNat % 16) = b := by
  have hlt := b.toNat_lt
  apply UInt8.toNat_inj.mp
  rw [UInt8.toNat_add, UInt8.toNat_mul, UInt8.toNat_ofNat', UInt8.toNat_ofNat',
    show UInt8.toNat 16 = 16 from rfl]
  omega

theorem utf8_text (bs : Bytes) : utf8 (text bs) =
    bs.flatMap fun b => [digitByte (b.toNat / 16), digitByte (b.toNat % 16)] := by
  rw [utf8, text, String.toList_ofList, List.flatMap_assoc]
  congr 1
  funext b
  have hlt := b.toNat_lt
  simp only [byteText, List.flatMap_cons, List.flatMap_nil, List.append_nil]
  rw [utf8_digit (by omega), utf8_digit (by omega)]
  rfl

theorem length_utf8_text (bs : Bytes) : (utf8 (text bs)).length = 2 * bs.length := by
  rw [utf8_text]
  induction bs with
  | nil => rfl
  | cons b bs ih =>
    rw [List.flatMap_cons, List.length_append, ih]
    simp only [List.length_cons, List.length_nil]
    omega

theorem parsePairs_text (index : Nat) (bs : Bytes) :
    parsePairs index (utf8 (text bs)) = .ok bs := by
  rw [utf8_text]
  induction bs generalizing index with
  | nil => rfl
  | cons b bs ih =>
    have hlt := b.toNat_lt
    have hhigh := @digitValue?_digit (b.toNat / 16) (by omega)
    have hlow := @digitValue?_digit (b.toNat % 16) (by omega)
    rw [List.flatMap_cons, List.cons_append, List.cons_append, List.nil_append, parsePairs, hhigh,
      hlow]
    simp only [ih, ofNat_halves]

/-- Written digits read back as the bytes. -/
theorem parse_text (bs : Bytes) : parse (utf8 (text bs)) = .ok bs := by
  rw [parse, length_utf8_text, if_neg (by omega), parsePairs_text]

/-! ## Texts that are read -/

/-- The digits of either case. -/
def IsDigit (c : Char) : Prop :=
  ('0' ≤ c ∧ c ≤ '9') ∨ ('a' ≤ c ∧ c ≤ 'f') ∨ ('A' ≤ c ∧ c ≤ 'F')

instance : DecidablePred IsDigit := fun c =>
  inferInstanceAs (Decidable (('0' ≤ c ∧ c ≤ '9') ∨ ('a' ≤ c ∧ c ≤ 'f') ∨ ('A' ≤ c ∧ c ≤ 'F')))

/-- The character with the code of a byte. -/
def byteChar (b : UInt8) : Char := Char.ofNat b.toNat

/-- A property of all bytes is a finite one. -/
theorem forall_byte {p : UInt8 → Prop} (h : ∀ n : Fin 256, p (UInt8.ofNat n)) (b : UInt8) :
    p b := by
  have hb := h ⟨b.toNat, b.toNat_lt⟩
  rwa [UInt8.ofNat_toNat] at hb

theorem digitValue?_eq_none {b : UInt8} (h : ¬IsDigit (byteChar b)) : digitValue? b = none :=
  forall_byte (p := fun b => ¬IsDigit (byteChar b) → digitValue? b = none) (by decide +kernel) b h

/-- The value of a digit is written as this digit in lower case. -/
theorem exists_digitValue? {b : UInt8} (h : IsDigit (byteChar b)) :
    ∃ v, digitValue? b = some v ∧ v.toNat < 16 ∧ digit v.toNat = (byteChar b).toLower := by
  have hall : IsDigit (byteChar b) → (digitValue? b).any fun v =>
      v.toNat < 16 ∧ digit v.toNat = (byteChar b).toLower :=
    forall_byte (p := fun b => IsDigit (byteChar b) → (digitValue? b).any fun v =>
      v.toNat < 16 ∧ digit v.toNat = (byteChar b).toLower) (by decide +kernel) b
  simpa [Option.any_eq_true] using hall h

/-- Digits are read to the end, and the bytes are written as the digits in lower case. -/
theorem parsePairs_of_isDigit : (index : Nat) → (bs : Bytes) → bs.length % 2 = 0 →
    (∀ b ∈ bs, IsDigit (byteChar b)) → ∃ out, parsePairs index bs = .ok out ∧
      bs.length = 2 * out.length ∧ out.flatMap byteText = bs.map fun b => (byteChar b).toLower
  | _, [], _, _ => ⟨[], rfl, rfl, rfl⟩
  | _, [_], heven, _ => absurd heven (by simp)
  | index, high :: low :: rest, heven, hdigits => by
    have hrest : rest.length % 2 = 0 := by
      simp only [List.length_cons] at heven
      omega
    simp only [List.forall_mem_cons] at hdigits
    obtain ⟨hhigh, hlow, htail⟩ := hdigits
    obtain ⟨out, hout, hlength, htext⟩ := parsePairs_of_isDigit (index + 2) rest hrest htail
    obtain ⟨h, hh, hh16, hhtext⟩ := exists_digitValue? hhigh
    obtain ⟨l, hl, hl16, hltext⟩ := exists_digitValue? hlow
    have hbyte : (16 * h + l).toNat = 16 * h.toNat + l.toNat := by
      rw [UInt8.toNat_add, UInt8.toNat_mul, show UInt8.toNat 16 = 16 from rfl]
      omega
    refine ⟨(16 * h + l) :: out, ?_, ?_, ?_⟩
    · rw [parsePairs, hh, hl]
      simp only [hout]
    · simp only [List.length_cons, hlength]
      omega
    · rw [List.flatMap_cons, htext, byteText, hbyte,
        show (16 * h.toNat + l.toNat) / 16 = h.toNat by omega,
        show (16 * h.toNat + l.toNat) % 16 = l.toNat by omega, hhtext, hltext]
      rfl

/-- The first byte that is no digit is the fault, wherever it stands in its pair. -/
theorem parsePairs_badDigit {b : UInt8} {post : Bytes} (hb : ¬IsDigit (byteChar b)) :
    (index : Nat) → (pre : Bytes) → (pre ++ b :: post).length % 2 = 0 →
      (∀ x ∈ pre, IsDigit (byteChar x)) →
        parsePairs index (pre ++ b :: post) = .error (.badDigit b (index + pre.length))
  | index, [], heven, _ => by
    cases post with
    -- an even number of bytes leaves no fault without a partner
    | nil => exact absurd heven (by simp)
    | cons low post =>
      rw [List.nil_append, parsePairs, digitValue?_eq_none hb]
      rfl
  | index, [high], _, hdigits => by
    obtain ⟨h, hh, -⟩ := exists_digitValue? (hdigits high List.mem_cons_self)
    rw [List.cons_append, List.nil_append, parsePairs, hh, digitValue?_eq_none hb]
    rfl
  | index, high :: low :: rest, heven, hdigits => by
    have hrest : (rest ++ b :: post).length % 2 = 0 := by
      simp only [List.cons_append, List.length_cons] at heven
      omega
    simp only [List.forall_mem_cons] at hdigits
    obtain ⟨hhigh, hlow, htail⟩ := hdigits
    obtain ⟨h, hh, -⟩ := exists_digitValue? hhigh
    obtain ⟨l, hl, -⟩ := exists_digitValue? hlow
    rw [List.cons_append, List.cons_append, parsePairs, hh, hl]
    simp only [parsePairs_badDigit hb (index + 2) rest hrest htail, List.length_cons,
      Nat.add_assoc, Nat.add_comm 2]

/-! ## Digits among characters -/

theorem isDigit_iff (c : Char) : IsDigit c ↔ (48 ≤ c.toNat ∧ c.toNat ≤ 57) ∨
    (97 ≤ c.toNat ∧ c.toNat ≤ 102) ∨ (65 ≤ c.toNat ∧ c.toNat ≤ 70) := by
  simp only [IsDigit, Char.le_def, UInt32.le_iff_toNat_le]
  rfl

theorem byteChar_ofNat {c : Char} (h : c.toNat < 256) : byteChar (UInt8.ofNat c.toNat) = c := by
  rw [byteChar, UInt8.toNat_ofNat', Nat.mod_eq_of_lt h, Char.ofNat_toNat]

/-- A digit is one byte, with its code. -/
theorem utf8EncodeChar_of_isDigit {c : Char} (h : IsDigit c) :
    String.utf8EncodeChar c = [UInt8.ofNat c.toNat] := by
  rw [isDigit_iff] at h
  exact if_pos (show c.toNat ≤ 127 by omega)

theorem toNat_lt_of_isDigit {b : UInt8} (h : IsDigit (byteChar b)) : b.toNat < 128 :=
  forall_byte (p := fun b => IsDigit (byteChar b) → b.toNat < 128) (by decide +kernel) b h

/-- The first byte of a character. -/
def leadByte (c : Char) : UInt8 := (String.utf8EncodeChar c).headD 0

theorem utf8EncodeChar_eq_cons (c : Char) :
    ∃ rest, String.utf8EncodeChar c = leadByte c :: rest := by
  unfold leadByte
  cases h : String.utf8EncodeChar c with
  | nil => exact absurd h String.utf8EncodeChar_ne_nil
  | cons b rest => exact ⟨rest, rfl⟩

/-- Within ASCII the first byte is the code. Outside it lies above all digits, and it is the
code of U+00C3 alone. -/
theorem toNat_leadByte (c : Char) : c.toNat < 128 ∧ (leadByte c).toNat = c.toNat ∨
    128 ≤ c.toNat ∧ 128 ≤ (leadByte c).toNat ∧
      ((leadByte c).toNat = c.toNat ↔ c.toNat = 195) := by
  have hcode : c.val.toNat = c.toNat := rfl
  unfold leadByte String.utf8EncodeChar
  simp only [hcode]
  split
  · rw [List.headD_cons, UInt8.toNat_ofNat', Nat.mod_eq_of_lt (by omega)]
    omega
  · right
    split
    -- of two bytes the first may be the code, of more it is below all codes
    · have hhigh : c.toNat / 64 % 32 = c.toNat / 64 := Nat.mod_eq_of_lt (by omega)
      rw [List.headD_cons, UInt8.toNat_ofNat', hhigh, Nat.mod_eq_of_lt (by omega)]
      omega
    · split
      · rw [List.headD_cons, UInt8.toNat_ofNat', Nat.mod_eq_of_lt (by omega)]
        omega
      · rw [List.headD_cons, UInt8.toNat_ofNat', Nat.mod_eq_of_lt (by omega)]
        omega

/-- A character is a digit exactly if its first byte is one. -/
theorem isDigit_leadByte_iff (c : Char) : IsDigit (byteChar (leadByte c)) ↔ IsDigit c := by
  obtain ⟨hascii, hlead⟩ | ⟨hcode, hlead, -⟩ := toNat_leadByte c
  · rw [byteChar, hlead, Char.ofNat_toNat]
  · refine iff_of_false (fun h => ?_) (fun h => ?_)
    · exact absurd (toNat_lt_of_isDigit h) (by omega)
    · rw [isDigit_iff] at h
      omega

/-- A character is a digit exactly if each of its bytes is one. -/
theorem forall_utf8EncodeChar_iff (c : Char) :
    (∀ b ∈ String.utf8EncodeChar c, IsDigit (byteChar b)) ↔ IsDigit c := by
  constructor
  · intro h
    obtain ⟨rest, hbytes⟩ := utf8EncodeChar_eq_cons c
    rw [hbytes, List.forall_mem_cons] at h
    exact (isDigit_leadByte_iff c).mp h.1
  · intro h
    have hcode := (isDigit_iff c).mp h
    rw [utf8EncodeChar_of_isDigit h, List.forall_mem_singleton, byteChar_ofNat (by omega)]
    exact h

theorem forall_utf8_iff (s : String) :
    (∀ b ∈ utf8 s, IsDigit (byteChar b)) ↔ ∀ c ∈ s.toList, IsDigit c := by
  simp only [utf8, List.mem_flatMap, forall_exists_index, and_imp]
  exact ⟨fun h c hc => (forall_utf8EncodeChar_iff c).mp fun b hb => h b c hc hb,
    fun h b c hc hb => (forall_utf8EncodeChar_iff c).mpr (h c hc) b hb⟩

/-- A text of digits has one byte for each character. -/
theorem map_byteChar_utf8 {s : String} (h : ∀ c ∈ s.toList, IsDigit c) :
    (utf8 s).map byteChar = s.toList := by
  rw [utf8]
  generalize s.toList = cs at h
  induction cs with
  | nil => rfl
  | cons c cs ih =>
    rw [List.forall_mem_cons] at h
    have hcode := (isDigit_iff c).mp h.1
    rw [List.flatMap_cons, utf8EncodeChar_of_isDigit h.1, List.map_append, ih h.2, List.map_cons,
      byteChar_ofNat (by omega)]
    rfl

theorem length_utf8_of_isDigit {s : String} (h : ∀ c ∈ s.toList, IsDigit c) :
    (utf8 s).length = s.length := by
  rw [← String.length_toList, ← map_byteChar_utf8 h, List.length_map]

/-! ## The first fault -/

theorem parse_odd {bs : Bytes} (h : bs.length % 2 = 1) : parse bs = .error .oddLength := if_pos h

theorem parse_badDigit {pre post : Bytes} {b : UInt8} (heven : (pre ++ b :: post).length % 2 = 0)
    (hpre : ∀ x ∈ pre, IsDigit (byteChar x)) (hb : ¬IsDigit (byteChar b)) :
    parse (pre ++ b :: post) = .error (.badDigit b pre.length) := by
  rw [parse, if_neg (by omega), parsePairs_badDigit hb 0 pre heven hpre, Nat.zero_add]

theorem parse_of_isDigit {bs : Bytes} (heven : bs.length % 2 = 0)
    (h : ∀ b ∈ bs, IsDigit (byteChar b)) : ∃ out, parse bs = .ok out ∧
      bs.length = 2 * out.length ∧ out.flatMap byteText = bs.map fun b => (byteChar b).toLower := by
  rw [parse, if_neg (by omega)]
  exact parsePairs_of_isDigit 0 bs heven h

/-- What does not hold of a whole list fails first at one of its elements. -/
theorem exists_first_fault {α : Type} {p : α → Prop} {l : List α} (h : ¬∀ x ∈ l, p x) :
    ∃ pre x post, l = pre ++ x :: post ∧ (∀ y ∈ pre, p y) ∧ ¬p x := by
  induction l with
  | nil => exact absurd (fun _ hx => absurd hx List.not_mem_nil) h
  | cons x l ih =>
    by_cases hx : p x
    · rw [List.forall_mem_cons] at h
      obtain ⟨pre, y, post, rfl, hpre, hy⟩ := ih fun hl => h ⟨hx, hl⟩
      exact ⟨x :: pre, y, post, rfl, List.forall_mem_cons.mpr ⟨hx, hpre⟩, hy⟩
    · exact ⟨[], x, l, rfl, fun _ hy => absurd hy List.not_mem_nil, hx⟩

end Hex

/-- The digits of an object id read back as the id. -/
theorem ObjectId.parse_hex (id : ObjectId) : parse id.hex = .ok id := by
  rw [parse, hex, Hex.parse_text]
  simp only [id.length_bytes, dite_true]

end BsonWriter
