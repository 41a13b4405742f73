import BsonWriter.Proofs.Text.CodeUnits

/-!
Well-formed UTF-8 by its byte ranges. The first byte of a sequence says how many follow, and
the second is held to a narrower range behind four of the first ones, which leaves out
overlong forms, surrogates and everything above U+10FFFF. Every character is encoded by a
sequence and every sequence encodes one (`sequence_utf8EncodeChar`, `exists_utf8EncodeChar`),
so a byte string passes the check if and only if it is made of them (`isUtf8_iff_wellFormed`).
-/

namespace BsonWriter

/-- A byte that continues a sequence. -/
def IsTail (b : UInt8) : Prop := 0x80 ≤ b.toNat ∧ b.toNat ≤ 0xBF

/-- The byte sequences that stand for one character. -/
inductive Sequence : Bytes → Prop
  | one {a : UInt8} : a.toNat ≤ 0x7F → Sequence [a]
  | two {a b : UInt8} : 0xC2 ≤ a.toNat → a.toNat ≤ 0xDF → IsTail b → Sequence [a, b]
  | three {a b c : UInt8} : 0xE0 ≤ a.toNat → a.toNat ≤ 0xEF →
      (a.toNat = 0xE0 → 0xA0 ≤ b.toNat) → (a.toNat = 0xED → b.toNat ≤ 0x9F) →
      IsTail b → IsTail c → Sequence [a, b, c]
  | four {a b c d : UInt8} : 0xF0 ≤ a.toNat → a.toNat ≤ 0xF4 →
      (a.toNat = 0xF0 → 0x90 ≤ b.toNat) → (a.toNat = 0xF4 → b.toNat ≤ 0x8F) →
      IsTail b → IsTail c → IsTail d → Sequence [a, b, c, d]

/-- Sequences one after another, none of them cut short. -/
inductive WellFormed : Bytes → Prop
  | nil : WellFormed []
  | cons {sequence rest : Bytes} : Sequence sequence → WellFormed rest →
      WellFormed (sequence ++ rest)

/-! ## Characters -/

theorem exists_char {v : Nat} (h : v < 0xD800 ∨ 0xE000 ≤ v ∧ v < 0x110000) :
    ∃ c : Char, c.val.toNat = v := by
  have hv : (UInt32.ofNat v).toNat = v := by
    rw [UInt32.toNat_ofNat']
    omega
  refine ⟨⟨UInt32.ofNat v, ?_⟩, hv⟩
  rw [UInt32.isValidChar, hv]
  exact h.imp id fun h => ⟨by omega, h.2⟩

theorem sequence_utf8EncodeChar (c : Char) : Sequence (String.utf8EncodeChar c) := by
  have hc : c.val.toNat < 0xD800 ∨ 0xE000 ≤ c.val.toNat ∧ c.val.toNat < 0x110000 :=
    toNat_char_cases c
  unfold String.utf8EncodeChar
  dsimp only
  split
  · apply Sequence.one
    rw [UInt8.toNat_ofNat']
    omega
  · split
    · apply Sequence.two <;> simp only [IsTail, UInt8.toNat_ofNat'] <;> omega
    · split
      · apply Sequence.three <;> simp only [IsTail, UInt8.toNat_ofNat'] <;> omega
      · apply Sequence.four <;> simp only [IsTail, UInt8.toNat_ofNat'] <;> omega

/-- The byte with a number that is its own. -/
theorem ofNat_eq_of_toNat {b : UInt8} {n : Nat} (h : n = b.toNat) : UInt8.ofNat n = b := by
  rw [h, UInt8.ofNat_toNat]

theorem exists_utf8EncodeChar {bs : Bytes} (h : Sequence bs) :
    ∃ c, String.utf8EncodeChar c = bs := by
  unfold String.utf8EncodeChar
  dsimp only
  cases h with
  | @one a ha =>
    obtain ⟨c, hc⟩ := @exists_char a.toNat (by omega)
    refine ⟨c, ?_⟩
    rw [hc, if_pos ha, UInt8.ofNat_toNat]
  | @two a b hl hg hb =>
    obtain ⟨v, hv⟩ : ∃ v, v = (a.toNat - 0xC0) * 64 + (b.toNat - 0x80) := ⟨_, rfl⟩
    unfold IsTail at hb
    obtain ⟨c, hc⟩ := @exists_char v (by omega)
    refine ⟨c, ?_⟩
    rw [hc, if_neg (by omega), if_pos (by omega), ofNat_eq_of_toNat (b := a) (by omega),
      ofNat_eq_of_toNat (b := b) (by omega)]
  | @three a b c hl hg hlong hsurrogate hb hc =>
    obtain ⟨v, hv⟩ : ∃ v, v =
      (a.toNat - 0xE0) * 4096 + (b.toNat - 0x80) * 64 + (c.toNat - 0x80) := ⟨_, rfl⟩
    unfold IsTail at hb hc
    obtain ⟨char, hchar⟩ := @exists_char v (by omega)
    refine ⟨char, ?_⟩
    rw [hchar, if_neg (by omega), if_neg (by omega), if_pos (by omega),
      ofNat_eq_of_toNat (b := a) (by omega), ofNat_eq_of_toNat (b := b) (by omega),
      ofNat_eq_of_toNat (b := c) (by omega)]
  | @four a b c d hl hg hlong hgreat hb hc hd =>
    obtain ⟨v, hv⟩ : ∃ v, v = (a.toNat - 0xF0) * 262144 + (b.toNat - 0x80) * 4096 +
      (c.toNat - 0x80) * 64 + (d.toNat - 0x80) := ⟨_, rfl⟩
    unfold IsTail at hb hc hd
    obtain ⟨char, hchar⟩ := @exists_char v (by omega)
    refine ⟨char, ?_⟩
    rw [hchar, if_neg (by omega), if_neg (by omega), if_neg (by omega),
      ofNat_eq_of_toNat (b := a) (by omega), ofNat_eq_of_toNat (b := b) (by omega),
      ofNat_eq_of_toNat (b := c) (by omega), ofNat_eq_of_toNat (b := d) (by omega)]

/-! ## Texts -/

theorem wellFormed_utf8 (s : String) : WellFormed (utf8 s) := by
  rw [utf8]
  generalize s.toList = cs
  induction cs with
  | nil => exact .nil
  | cons c cs ih => exact .cons (sequence_utf8EncodeChar c) ih

theorem exists_utf8 {bs : Bytes} (h : WellFormed bs) : ∃ s, bs = utf8 s := by
  induction h with
  | nil => exact ⟨"", rfl⟩
  | cons hsequence _ ih =>
    obtain ⟨c, rfl⟩ := exists_utf8EncodeChar hsequence
    obtain ⟨s, rfl⟩ := ih
    exact ⟨String.ofList (c :: s.toList), by simp [utf8]⟩

theorem isUtf8_iff_wellFormed {bs : Bytes} : isUtf8 bs = true ↔ WellFormed bs := by
  rw [isUtf8_iff]
  exact ⟨fun ⟨s, hs⟩ => hs ▸ wellFormed_utf8 s, exists_utf8⟩

end BsonWriter
