import BsonWriter.Proofs.Datum.Image
import BsonWriter.Proofs.Scalar.Accepting
import BsonWriter.Proofs.Wire.Reader
import Mathlib.Data.Nat.Digits.Defs

/-!
Integers keep their value in the narrowest type that holds it (`integers_keep_value`). The
choice goes by the length in bits, which is exact at both ends of both types, so writing an
integer of any size is writing a number of 32 or 64 bits or a text, and nothing else.
-/

namespace BsonWriter

open BsonWriter.Action

/-! ## The choice of a type -/

namespace Integer

theorem toInt32?_of_bitLength {v : Int} (h : bitLength v < 32) :
    toInt32? v = some (Int32.ofInt v) :=
  have hrange := (bitLength_lt_iff v 31).mp h
  if_pos ⟨by omega, by omega⟩

theorem toInt64?_of_bitLength {v : Int} (h : bitLength v < 64) :
    toInt64? v = some (Int64.ofInt v) :=
  have hrange := (bitLength_lt_iff v 63).mp h
  if_pos ⟨by omega, by omega⟩

end Integer

namespace Primitive

theorem ofInteger_int32 {v : Int} (hl : -2 ^ 31 ≤ v) (hg : v < 2 ^ 31) :
    ofInteger v = int32 (Int32.ofInt v) := by
  have hbits := (bitLength_lt_iff v 31).mpr ⟨hl, hg⟩
  rw [ofInteger, if_pos hbits, Integer.toInt32?_of_bitLength hbits]

theorem ofInteger_int64 {v : Int} (hwide : ¬(-2 ^ 31 ≤ v ∧ v < 2 ^ 31)) (hl : -2 ^ 63 ≤ v)
    (hg : v < 2 ^ 63) : ofInteger v = int64 (Int64.ofInt v) := by
  have hbits := (bitLength_lt_iff v 63).mpr ⟨hl, hg⟩
  rw [ofInteger, if_neg (mt (bitLength_lt_iff v 31).mp hwide), if_pos hbits,
    Integer.toInt64?_of_bitLength hbits]

theorem ofInteger_string {v : Int} (hwide : ¬(-2 ^ 63 ≤ v ∧ v < 2 ^ 63)) :
    ofInteger v = string (Integer.text v) := by
  have hbits := mt (bitLength_lt_iff v 63).mp hwide
  rw [ofInteger, if_neg (by omega), if_neg hbits]

end Primitive

/-! ## Integers of data -/

theorem length_utf8_le (s : String) : (utf8 s).length ≤ 4 * s.length := by
  rw [utf8, ← String.length_toList]
  generalize s.toList = cs
  induction cs with
  | nil => simp
  | cons c cs ih =>
    have hc : (String.utf8EncodeChar c).length ≤ 4 := by
      rw [String.length_utf8EncodeChar]
      exact c.utf8Size_le_four
    rw [List.flatMap_cons, List.length_append, List.length_cons]
    omega

/-- The digits of every integer of a type are short. -/
theorem TypedInteger.length_text (t : TypedInteger) :
    (Integer.text t.value).length ≤ 40 := by
  obtain ⟨type, value, hl, hg⟩ := t
  have hleast : -10 ^ 39 < type.least := by cases type <;> decide
  have hgreatest : type.greatest < 10 ^ 39 := by cases type <;> decide
  have hdigits : value.natAbs.repr.length ≤ 39 :=
    Nat.repr_length _ _ (by decide) (by omega)
  rw [Integer.text, String.length_append]
  dsimp only
  split
  · rw [show "-".length = 1 from rfl]
    omega
  · rw [show "".length = 0 from rfl]
    omega

namespace Datum

theorem integerScalar_cases (t : TypedInteger) : (∃ n, integerScalar t = .int32 n) ∨
    (∃ n, integerScalar t = .int64 n) ∨ integerScalar t = .integer t.value := by
  unfold integerScalar
  cases t.type with
  | int8 | int16 | int32 | nat8 | nat16 => exact .inl ⟨_, rfl⟩
  | int64 | nat32 => exact .inr (.inl ⟨_, rfl⟩)
  | nat64 =>
    dsimp only
    split
    · exact .inr (.inl ⟨_, rfl⟩)
    · exact .inr (.inr rfl)
  | int128 | nat128 => exact .inr (.inr rfl)

end Datum

/-- What can stand on the wire for an integer. -/
def WireValue.IsNumber (v : Int) (x : WireValue) : Prop :=
  (∃ n, x = .int32 n) ∨ (∃ n, x = .int64 n) ∨ x = .string (Integer.text v)

theorem isNumber_of_integerWire {v : Int} {x : WireValue} (h : integerWire? none v = some x) :
    x.IsNumber v := by
  unfold integerWire? at h
  split at h
  · cases h
    exact .inl ⟨_, rfl⟩
  · cases h
    exact .inr (.inl ⟨_, rfl⟩)
  · cases h
    exact .inr (.inr rfl)

theorem WireValue.IsNumber.length_payload {t : TypedInteger} {x : WireValue}
    (h : x.IsNumber t.value) : x.payload.length < lengthBound := by
  have hbound : 200 < lengthBound := by decide
  obtain ⟨n, rfl⟩ | ⟨n, rfl⟩ | rfl := h
  · rw [payload, show (int32Bytes n).length = 4 from length_littleEndian ..]
    omega
  · rw [payload, show (int64Bytes n).length = 8 from length_littleEndian ..]
    omega
  · have htext := length_utf8_le (Integer.text t.value)
    have hdigits := t.length_text
    rw [payload, length_prefixed]
    omega

theorem WireValue.IsNumber.readable {v : Int} {x : WireValue} (h : x.IsNumber v) :
    x.Readable := by
  obtain ⟨n, rfl⟩ | ⟨n, rfl⟩ | rfl := h <;> exact trivial

namespace Datum

/-- What stands on the wire for an integer of a type. -/
theorem wire_integerScalar (t : TypedInteger) (options : Options) :
    ∃ x, (integerScalar t).wire? options none = some x ∧ x.integer? = some t.value ∧
      x.IsNumber t.value := by
  obtain ⟨x, hx, hvalue⟩ := integer_of_image t
  rw [image?] at hx
  refine ⟨x, ?_, hvalue, ?_⟩
  · obtain ⟨n, h⟩ | ⟨n, h⟩ | h := integerScalar_cases t <;> rw [h] at hx ⊢ <;> exact hx
  · obtain ⟨n, h⟩ | ⟨n, h⟩ | h := integerScalar_cases t <;> rw [h] at hx
    · cases hx
      exact .inl ⟨n, rfl⟩
    · cases hx
      exact .inr (.inl ⟨n, rfl⟩)
    · exact isNumber_of_integerWire hx

end Datum

/-- An integer of any size does the same as the number of 32 bits with its value if it lies in
their range, else as the number of 64 bits with its value if it lies in theirs, and else,
where a scalar may come, as the text of its digits. What the length in bits lets through, the
conversion does not turn down. Without an escape table, what is written for an integer of a
type is a number or a text of digits with its value, and reads back as such. -/
theorem integers_keep_value :
    (∀ v : Int, (Integer.bitLength v < 32 → (Integer.toInt32? v).isSome = true) ∧
      (Integer.bitLength v < 64 → (Integer.toInt64? v).isSome = true)) ∧
    (∀ (v : Int) (place : Place) (w : Writer),
      (-2 ^ 31 ≤ v ∧ v < 2 ^ 31 → (Int32.ofInt v).toInt = v ∧
        (write place (.integer v)).run w = (write place (.int32 (Int32.ofInt v))).run w) ∧
      (¬(-2 ^ 31 ≤ v ∧ v < 2 ^ 31) → -2 ^ 63 ≤ v ∧ v < 2 ^ 63 → (Int64.ofInt v).toInt = v ∧
        (write place (.integer v)).run w = (write place (.int64 (Int64.ofInt v))).run w) ∧
      (¬(-2 ^ 63 ≤ v ∧ v < 2 ^ 63) → (place = .direct → w.AcceptsScalar) →
        Integer.parse? (Integer.text v) = some v ∧
        (write place (.integer v)).run w = (write place (.string (Integer.text v))).run w)) ∧
    (∀ (t : TypedInteger) (w : Writer), w.AcceptsScalar → w.escapes = none →
      ∃ (x : WireValue) (u : Writer), x.IsNumber t.value ∧ x.integer? = some t.value ∧
        Admits .scalar x.type w u ∧
        (serialize (.integer t)).run w = (tracked drainIfStreaming).run (u.put x.payload) ∧
        (∀ reading, ¬(reading = .dateTime ∧ t.type = .int64) →
          ((Datum.integer t).write reading).run w =
            (tracked drainIfStreaming).run (u.put x.payload)) ∧
        ElementType.ofTag? x.type.tag = some x.type ∧
        ∀ rounds rest, x.payload.length ≤ rounds →
          WireValue.readPayload (WireValue.readContent rounds) (x.payload ++ rest) x.type =
            some (x, rest)) := by
  refine ⟨fun v => ⟨fun h => ?_, fun h => ?_⟩, fun v place w => ⟨fun h => ⟨?_, ?_⟩,
    fun hwide h => ⟨?_, ?_⟩, fun hwide hplace => ⟨Integer.parse?_text v, ?_⟩⟩,
    fun t w ha he => ?_⟩
  · rw [Integer.toInt32?_of_bitLength h]
    rfl
  · rw [Integer.toInt64?_of_bitLength h]
    rfl
  · exact Int32.toInt_ofInt_of_le h.1 h.2
  · exact run_write_congr rfl fun _ => Primitive.ofInteger_int32 h.1 h.2
  · exact Int64.toInt_ofInt_of_le h.1 h.2
  · exact run_write_congr rfl fun _ => Primitive.ofInteger_int64 hwide h.1 h.2
  · refine run_write_congr ?_ fun _ => Primitive.ofInteger_string hwide
    cases place with
    | direct => exact (hplace rfl).run_takePosition _ _
    | field | element => rfl
  · obtain ⟨x, hx, hvalue, hnumber⟩ := Datum.wire_integerScalar t w.options
    obtain ⟨u, hu⟩ := ha.admits x.type
    obtain ⟨hoptions, hescapes⟩ := hu.kept ha.running
    have hl := hnumber.length_payload
    have hwrite : (write .direct (Datum.integerScalar t)).run w =
        (tracked drainIfStreaming).run (u.put x.payload) :=
      run_write_draining (by rw [hoptions, hescapes, he]; exact hx) hu hl
    refine ⟨x, u, hnumber, hvalue, hu, ?_, fun reading hreading => ?_,
      ElementType.ofTag?_tag x.type, fun rounds rest =>
        WireValue.readPayload_payload rounds rest x hnumber.readable hl⟩
    · rw [serialize, Datum.write, Datum.writeInteger, if_neg (by simp),
        tracked_of_stops (stops_write _), hwrite]
    · rw [Datum.write, Datum.writeInteger, if_neg hreading, hwrite]

/-- Below the range of 32 bits, below that of 64 bits, and above it without a sign, behind a
field name. -/
theorem integers_keep_value_beyond :
    let w := (Step.run ⟨Writer.onStorage {} {} [], []⟩
      [.begin .container .startObject .document, .name "n"]).writer
    (write .direct (.integer (-2147483649))).run w =
        (write .direct (.int64 (-2147483649))).run w ∧
      (write .direct (.integer (-9223372036854775809))).run w =
        (write .direct (.string "-9223372036854775809")).run w ∧
      ∃ (x : WireValue) (u : Writer), x.integer? = some 9223372036854775808 ∧
        Admits .scalar x.type w u ∧
        (serialize (.integer ⟨.nat64, 9223372036854775808, by decide, by decide⟩)).run w =
          (tracked drainIfStreaming).run (u.put x.payload) := by
  intro w
  have hnull : ∃ w', (write .direct .null).run w = .ok () w' := ⟨_, rfl⟩
  have ha : w.AcceptsScalar := hnull.elim fun _ => .of_write
  obtain ⟨-, hwrite, hserialize⟩ := integers_keep_value
  obtain ⟨-, hlong, -⟩ := hwrite (-2147483649) .direct w
  obtain ⟨-, -, htext⟩ := hwrite (-9223372036854775809) .direct w
  obtain ⟨x, u, -, hvalue, hu, hrun, -⟩ :=
    hserialize ⟨.nat64, 9223372036854775808, by decide, by decide⟩ w ha rfl
  exact ⟨(hlong (by decide) (by decide)).2, (htext (by decide) fun _ => ha).2,
    x, u, hvalue, hu, hrun⟩

end BsonWriter
