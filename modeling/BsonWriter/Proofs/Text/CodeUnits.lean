import Mathlib.Algebra.GroupWithZero.Nat
import BsonWriter.Text.Encoding

/-!
UTF-16 read back. A reader that takes a surrogate only together with its partner gives the text
whose bytes it gets (`decodeUtf16?_utf16`), and there are two bytes for each unit, that is
four for a character from U+10000 on (`length_utf16_eq_sum`).
-/

namespace BsonWriter

def IsHighSurrogate (u : Nat) : Prop := 0xD800 ≤ u ∧ u < 0xDC00

def IsLowSurrogate (u : Nat) : Prop := 0xDC00 ≤ u ∧ u < 0xE000

instance : DecidablePred IsHighSurrogate := fun _ => inferInstanceAs (Decidable (_ ∧ _))

instance : DecidablePred IsLowSurrogate := fun _ => inferInstanceAs (Decidable (_ ∧ _))

/-- The character of a surrogate pair. -/
def ofSurrogates (high low : Nat) : Char :=
  Char.ofNat (0x10000 + (high - 0xD800) * 0x400 + (low - 0xDC00))

/-- The units that are given by their bytes, least significant first. -/
def unitsOfBytes? : Bytes → Option (List Nat)
  | [] => some []
  | [_] => none
  | low :: high :: rest => (unitsOfBytes? rest).map ((low.toNat + 256 * high.toNat) :: ·)

/-- The characters of some units, unless a surrogate stands alone. -/
def charsOfUnits? : List Nat → Option (List Char)
  | [] => some []
  | [u] => if IsHighSurrogate u ∨ IsLowSurrogate u then none else some [Char.ofNat u]
  | u :: v :: rest =>
    if IsHighSurrogate u then
      if IsLowSurrogate v then (charsOfUnits? rest).map (ofSurrogates u v :: ·) else none
    else if IsLowSurrogate u then none
    else (charsOfUnits? (v :: rest)).map (Char.ofNat u :: ·)

/-- The text that some bytes in UTF-16 stand for. -/
def decodeUtf16? (bs : Bytes) : Option String :=
  ((unitsOfBytes? bs).bind charsOfUnits?).map String.ofList

/-! ## Units -/

/-- A character is no surrogate and has at most 21 bits. -/
theorem toNat_char_cases (c : Char) : c.toNat < 0xD800 ∨ 0xE000 ≤ c.toNat ∧ c.toNat < 0x110000 := by
  rcases c.valid with h | ⟨hl, hg⟩
  · exact .inl h
  · exact .inr ⟨hl, hg⟩

theorem lt_of_mem_utf16Units {c : Char} {u : Nat} (h : u ∈ utf16Units c) : u < 0x10000 := by
  have hc := toNat_char_cases c
  unfold utf16Units at h
  split at h
  · rw [List.mem_singleton] at h
    omega
  · rw [List.mem_cons, List.mem_singleton] at h
    omega

theorem length_utf16Units (c : Char) :
    (utf16Units c).length = if c.toNat < 0x10000 then 1 else 2 := by
  unfold utf16Units
  split <;> rfl

theorem unitsOfBytes?_littleEndian {units : List Nat} (h : ∀ u ∈ units, u < 0x10000) :
    unitsOfBytes? (units.flatMap (littleEndian 2)) = some units := by
  induction units with
  | nil => rfl
  | cons u units ih =>
    rw [List.forall_mem_cons] at h
    have hu : u % 256 + 256 * (u / 256 % 256) = u := by omega
    rw [List.flatMap_cons, littleEndian, littleEndian, littleEndian, List.cons_append,
      List.cons_append, List.nil_append, unitsOfBytes?, ih h.2]
    simp [hu]

theorem charsOfUnits?_cons {u : Nat} (hh : ¬IsHighSurrogate u) (hl : ¬IsLowSurrogate u)
    (units : List Nat) :
    charsOfUnits? (u :: units) = (charsOfUnits? units).map (Char.ofNat u :: ·) := by
  cases units with
  | nil => simp [charsOfUnits?, hh, hl]
  | cons v rest => rw [charsOfUnits?, if_neg hh, if_neg hl]

/-- The units of a character are read as the character, whatever follows. -/
theorem charsOfUnits?_append (c : Char) (units : List Nat) :
    charsOfUnits? (utf16Units c ++ units) = (charsOfUnits? units).map (c :: ·) := by
  have hc := toNat_char_cases c
  unfold utf16Units
  split
  · rw [List.singleton_append, charsOfUnits?_cons (by unfold IsHighSurrogate; omega)
      (by unfold IsLowSurrogate; omega), Char.ofNat_toNat]
  · have hhigh : IsHighSurrogate (0xD800 + (c.toNat - 0x10000) / 0x400) := by
      unfold IsHighSurrogate
      omega
    have hlow : IsLowSurrogate (0xDC00 + (c.toNat - 0x10000) % 0x400) := by
      unfold IsLowSurrogate
      omega
    have hpair : ofSurrogates (0xD800 + (c.toNat - 0x10000) / 0x400)
        (0xDC00 + (c.toNat - 0x10000) % 0x400) = c := by
      rw [ofSurrogates, show 0x10000 + (0xD800 + (c.toNat - 0x10000) / 0x400 - 0xD800) * 0x400 +
        (0xDC00 + (c.toNat - 0x10000) % 0x400 - 0xDC00) = c.toNat by omega, Char.ofNat_toNat]
    rw [List.cons_append, List.singleton_append, charsOfUnits?, if_pos hhigh, if_pos hlow, hpair]

theorem charsOfUnits?_flatMap (cs : List Char) :
    charsOfUnits? (cs.flatMap utf16Units) = some cs := by
  induction cs with
  | nil => rfl
  | cons c cs ih => rw [List.flatMap_cons, charsOfUnits?_append, ih, Option.map_some]

/-! ## Texts -/

theorem decodeUtf16?_utf16 (s : String) : decodeUtf16? (utf16 s) = some s := by
  have hsmall : ∀ u ∈ s.toList.flatMap utf16Units, u < 0x10000 := by
    intro u hu
    obtain ⟨c, -, hc⟩ := List.mem_flatMap.mp hu
    exact lt_of_mem_utf16Units hc
  rw [decodeUtf16?, utf16, unitsOfBytes?_littleEndian hsmall, Option.bind_some,
    charsOfUnits?_flatMap, Option.map_some, String.ofList_toList]

/-- There are two bytes for each unit. -/
theorem length_utf16 (s : String) :
    (utf16 s).length = 2 * (s.toList.flatMap utf16Units).length := by
  rw [utf16]
  generalize s.toList.flatMap utf16Units = units
  induction units with
  | nil => rfl
  | cons u units ih =>
    rw [List.flatMap_cons, List.length_append, ih, length_littleEndian, List.length_cons]
    omega

/-- A character takes two bytes below U+10000 and four from there on. -/
theorem length_utf16_eq_sum (s : String) :
    (utf16 s).length = (s.toList.map fun c => if c.toNat < 0x10000 then 2 else 4).sum := by
  rw [length_utf16]
  generalize s.toList = cs
  induction cs with
  | nil => rfl
  | cons c cs ih =>
    rw [List.flatMap_cons, List.length_append, Nat.mul_add, ih, length_utf16Units, List.map_cons,
      List.sum_cons]
    split <;> omega

end BsonWriter
