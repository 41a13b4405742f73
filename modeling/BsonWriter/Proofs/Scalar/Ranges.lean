import BsonWriter.Proofs.Scalar.Accepting
import BsonWriter.Proofs.Text.CodeUnits

/-!
Binary data and the four ways to write it (`binary_ranges_clipped`). A range is refused for its
length alone, and else keeps its length and writes those of its bytes that exist. Its ends
can be computed in words of 64 bits, where their sum stops at the greatest word
(`rangeBounds_spec`).
-/

namespace BsonWriter

open BsonWriter.Action

/-! ## Ends in words -/

theorem toNat_saturatingSum (a b : UInt64) :
    (saturatingSum a b).toNat = min (a.toNat + b.toNat) 0xFFFFFFFFFFFFFFFF := by
  have ha := a.toNat_lt
  have hb := b.toNat_lt
  have hsum : (a + b).toNat = (a.toNat + b.toNat) % 2 ^ 64 := UInt64.toNat_add a b
  unfold saturatingSum
  split
  · rename_i h
    rw [UInt64.lt_iff_toNat_lt] at h
    rw [show UInt64.toNat 0xFFFFFFFFFFFFFFFF = 0xFFFFFFFFFFFFFFFF from rfl]
    omega
  · rename_i h
    rw [UInt64.lt_iff_toNat_lt] at h
    omega

/-- The ends are in order and within the data, and where the sum of offset and length would
be without a greatest word. -/
theorem rangeBounds_spec (size offset length : UInt64) :
    (rangeBounds size offset length).1.toNat = min offset.toNat size.toNat ∧
      (rangeBounds size offset length).2.toNat =
        min (offset.toNat + length.toNat) size.toNat ∧
      (rangeBounds size offset length).1 ≤ (rangeBounds size offset length).2 ∧
      (rangeBounds size offset length).2 ≤ size := by
  have hsize := size.toNat_lt
  have hstart := UInt64.toNat_min offset size
  have hstop := UInt64.toNat_min (saturatingSum offset length) size
  rw [toNat_saturatingSum] at hstop
  simp only [rangeBounds, UInt64.le_iff_toNat_le]
  omega

/-- The bytes between the ends are those of the range. -/
theorem extract_rangeBounds {bs : Bytes} {size : UInt64} (hs : bs.length = size.toNat)
    (offset length : UInt64) :
    bs.extract (rangeBounds size offset length).1.toNat
        (rangeBounds size offset length).2.toNat =
      (bs.drop offset.toNat).take length.toNat := by
  obtain ⟨hstart, hstop, -⟩ := rangeBounds_spec size offset length
  rw [hstart, hstop, ← hs, List.extract_eq_take_drop]
  by_cases h : offset.toNat ≤ bs.length
  · rw [Nat.min_eq_left h, List.take_eq_take_iff, List.length_drop]
    omega
  · rw [List.drop_eq_nil_of_le (by omega), List.drop_eq_nil_of_le (by omega)]
    simp

/-! ## The bytes that exist -/

/-- Each byte comes from its own position, from the offset on. -/
theorem getElem?_range (bs : Bytes) (offset length k : Nat) :
    ((bs.drop offset).take length)[k]? = if k < length then bs[offset + k]? else none := by
  rw [List.getElem?_take, List.getElem?_drop]

/-- A range has as many bytes as it says exactly if it lies within its data or is empty. -/
theorem length_range_eq_iff (bs : Bytes) (offset length : Nat) :
    ((bs.drop offset).take length).length = length ↔ offset + length ≤ bs.length ∨ length = 0 := by
  rw [List.length_take, List.length_drop]
  omega

/-! ## Writing data -/

namespace Payload

theorem binary_of_fits {length : Nat} (h : length < lengthBound) (subtype : UInt8) (data : Bytes) :
    binary subtype length data = ⟨lengthField length ++ subtype :: data, none⟩ := if_pos h

theorem binary_of_overflow {length : Nat} (h : lengthBound ≤ length) (subtype : UInt8)
    (data : Bytes) : binary subtype length data = fault (.lengthOverflow length) :=
  if_neg (Nat.not_lt.mpr h)

end Payload

theorem lengthField_inj {m n : Nat} (hm : m < lengthBound) (hn : n < lengthBound)
    (h : lengthField m = lengthField n) : m = n := by
  unfold lengthBound at hm hn
  exact littleEndian_inj (by omega) (by omega) h

/-- Completing the same data under two lengths is the same exactly if the lengths are. -/
theorem complete_binary_iff {subtype : UInt8} {m n : Nat} {data : Bytes} {w : Writer} :
    (complete (.binary subtype m data)).run w = (complete (.binary subtype n data)).run w ↔
      m = n := by
  constructor
  · intro h
    by_cases hm : m < lengthBound
    · by_cases hn : n < lengthBound
      · rw [Payload.binary_of_fits hm, Payload.binary_of_fits hn] at h
        exact lengthField_inj hm hn (List.append_cancel_right (complete_inj h))
      · rw [Payload.binary_of_fits hm, Payload.binary_of_overflow (Nat.not_lt.mp hn)] at h
        exact absurd h (run_complete_ne_fault (by simp) _ _)
    · by_cases hn : n < lengthBound
      · rw [Payload.binary_of_overflow (Nat.not_lt.mp hm), Payload.binary_of_fits hn] at h
        exact absurd h.symm (run_complete_ne_fault (by simp) _ _)
      · rw [Payload.binary_of_overflow (Nat.not_lt.mp hm),
          Payload.binary_of_overflow (Nat.not_lt.mp hn), run_complete_fault,
          run_complete_fault] at h
        simpa using h
  · rintro rfl
    rfl

/-- Data in full is the range from its first byte to its last, at every place. -/
theorem write_binary_eq (place : Place) (subtype : BinarySubtype) (bs : Bytes) :
    write place (.binary subtype bs) = write place (.binaryRange subtype bs 0 bs.length) := by
  have hall : (bs.drop 0).take bs.length = bs := List.take_length
  simp only [write, Scalar.activity, Scalar.primitive, hall]

/-- Where a scalar may come, binary data is refused for a length that its field cannot hold,
which is reported, and nothing of it is written. Otherwise a range writes its length, its
subtype and the bytes at those positions from the offset on, before the sum of offset and
length, that exist; in words of 64 bits these lie between two ends in order and within the
data. A range does the same as the part of the data that exists exactly if it lies within the
data or is empty, data in full does the same as its full range, and a text in UTF-16 the same
as its bytes, of which there are two for each unit and which read back as the text. -/
theorem binary_ranges_clipped {w : Writer} (hw : w.AcceptsScalar) :
    ∃ u, Admits .scalar .binary w u ∧
    (∀ (subtype : BinarySubtype) (bs : Bytes) (offset length : Nat),
      let data := (bs.drop offset).take length
      let range := write .direct (.binaryRange subtype bs offset length)
      (range.result w = .error ⟨.lengthOverflow length, none⟩ ↔ 2 ^ 31 ≤ length) ∧
      (2 ^ 31 ≤ length → range.run w = .error ⟨.lengthOverflow length, none⟩ u.fail) ∧
      (length < 2 ^ 31 → range.run w =
        (tracked drainIfStreaming).run (u.put (lengthField length ++ subtype.byte :: data))) ∧
      (∀ k, data[k]? = if k < length then bs[offset + k]? else none) ∧
      (range.run w = (write .direct (.binary subtype data)).run w ↔
        offset + length ≤ bs.length ∨ length = 0)) ∧
    (∀ (bs : Bytes) (size offset length : UInt64), bs.length = size.toNat →
      let (start, stop) := rangeBounds size offset length
      start ≤ stop ∧ stop ≤ size ∧
        bs.extract start.toNat stop.toNat = (bs.drop offset.toNat).take length.toNat) ∧
    (∀ place subtype bs,
      write place (.binary subtype bs) = write place (.binaryRange subtype bs 0 bs.length)) ∧
    ∀ s : String,
      (write .direct (.rawText s)).run w = (write .direct (.binary .generic (utf16 s))).run w ∧
      (utf16 s).length = 2 * (s.toList.flatMap utf16Units).length ∧
      (utf16 s).length = (s.toList.map fun c => if c.toNat < 0x10000 then 2 else 4).sum ∧
      decodeUtf16? (utf16 s) = some s := by
  obtain ⟨u, hu, hrun⟩ := hw.run_write .binary
  refine ⟨u, hu, fun subtype bs offset length => ?_, fun bs size offset length hs => ?_,
    write_binary_eq, fun s => ⟨?_, length_utf16 s, length_utf16_eq_sum s, decodeUtf16?_utf16 s⟩⟩
  · intro data range
    have hrange : range.run w = (complete (.binary subtype.byte length data)).run u := hrun _ rfl
    have hpart : (write .direct (.binary subtype data)).run w =
        (complete (.binary subtype.byte data.length data)).run u := hrun _ rfl
    have hover : 2 ^ 31 ≤ length →
        range.run w = .error ⟨.lengthOverflow length, none⟩ u.fail := fun h => by
      rw [hrange, Payload.binary_of_overflow h, run_complete_fault]
    have hfits : length < 2 ^ 31 → range.run w =
        (complete ⟨lengthField length ++ subtype.byte :: data, none⟩).run u := fun h => by
      rw [hrange, Payload.binary_of_fits h]
    refine ⟨⟨fun h => ?_, fun h => result_of_error (hover h)⟩, hover, fun h => ?_,
      getElem?_range bs offset length, ?_⟩
    · by_contra hlt
      rw [result, hfits (Nat.lt_of_not_le hlt)] at h
      exact result_complete_ne_error (by simp) _ u h
    · rw [hfits h, run_complete]
    · rw [hrange, hpart, complete_binary_iff, eq_comm]
      exact length_range_eq_iff bs offset length
  · obtain ⟨-, -, horder, hwithin⟩ := rangeBounds_spec size offset length
    exact ⟨horder, hwithin, extract_rangeBounds hs offset length⟩
  · rw [hrun (.rawText s) rfl, hrun (.binary .generic (utf16 s)) rfl]
    rfl

/-- Behind a field name: the greatest length, the greatest offset, and a range that reaches past
the end of its data or up to it. -/
theorem binary_ranges_clipped_ends :
    let w := (Step.run ⟨Writer.onStorage {} {} [], []⟩
      [.begin .container .startObject .document, .name "f"]).writer
    ∃ u, Admits .scalar .binary w u ∧
      (write .direct (.binaryRange .md5 [1, 2, 3] 1 0xFFFFFFFFFFFFFFFF)).run w =
        .error ⟨.lengthOverflow 0xFFFFFFFFFFFFFFFF, none⟩ u.fail ∧
      (write .direct (.binaryRange .md5 [1, 2, 3] 0xFFFFFFFFFFFFFFFF 5)).run w =
        (tracked drainIfStreaming).run (u.put [5, 0, 0, 0, 5]) ∧
      [1, 2, 3].extract (rangeBounds 3 0xFFFFFFFFFFFFFFFF 5).1.toNat
        (rangeBounds 3 0xFFFFFFFFFFFFFFFF 5).2.toNat = ([] : Bytes) ∧
      (write .direct (.binaryRange .md5 [1, 2, 3] 1 3)).run w ≠
        (write .direct (.binary .md5 [2, 3])).run w ∧
      (write .direct (.binaryRange .md5 [1, 2, 3] 1 2)).run w =
        (write .direct (.binary .md5 [2, 3])).run w := by
  intro w
  have hnull : ∃ w', (write .direct .null).run w = .ok () w' := ⟨_, rfl⟩
  obtain ⟨u, hu, hrange, hbounds, -⟩ := binary_ranges_clipped (hnull.elim fun _ => .of_write)
  obtain ⟨-, hover, -⟩ := hrange .md5 [1, 2, 3] 1 0xFFFFFFFFFFFFFFFF
  obtain ⟨-, -, hbeyond, -⟩ := hrange .md5 [1, 2, 3] 0xFFFFFFFFFFFFFFFF 5
  obtain ⟨-, -, -, -, hpast⟩ := hrange .md5 [1, 2, 3] 1 3
  obtain ⟨-, -, -, -, hupTo⟩ := hrange .md5 [1, 2, 3] 1 2
  obtain ⟨-, -, hpart⟩ := hbounds [1, 2, 3] 3 0xFFFFFFFFFFFFFFFF 5 rfl
  exact ⟨u, hu, hover (by decide), hbeyond (by decide), hpart,
    fun h => absurd (hpast.mp h) (by decide), hupTo.mpr (by decide)⟩

end BsonWriter
