import BsonWriter.Proofs.Wire.Reader

/-!
The reader accepts nothing else than it should: what it reads as some documents
is exactly what stands on the wire for them (`readDocuments_eq_some_iff`). So a
length that is not exact, a missing terminator and an unknown type byte are all
refused, and documents have one form only.
-/

namespace BsonWriter

/-! ## Integers and texts -/

theorem eq_of_readBytes {width : Nat} {bs word rest : Bytes}
    (h : readBytes width bs = some (word, rest)) : bs = word ++ rest ∧ word.length = width := by
  unfold readBytes at h
  split at h
  · cases h
    exact ⟨(List.take_append_drop ..).symm, List.length_take_of_le (by assumption)⟩
  · cases h

theorem littleEndian_ofLittleEndian (bs : Bytes) :
    littleEndian bs.length (ofLittleEndian bs) = bs := by
  induction bs with
  | nil => rfl
  | cons b bs ih =>
    have hb : b.toNat < 256 := UInt8.toNat_lt b
    have hdiv : (b.toNat + 256 * ofLittleEndian bs) / 256 = ofLittleEndian bs := by omega
    have hmod : UInt8.ofNat (b.toNat + 256 * ofLittleEndian bs) = b := by
      apply UInt8.toNat_inj.mp
      rw [UInt8.toNat_ofNat']
      omega
    rw [List.length_cons, ofLittleEndian, littleEndian, hdiv, hmod, ih]

theorem ofLittleEndian_lt (bs : Bytes) : ofLittleEndian bs < 256 ^ bs.length := by
  induction bs with
  | nil => exact Nat.one_pos
  | cons b bs ih =>
    have hb : b.toNat < 256 := UInt8.toNat_lt b
    rw [ofLittleEndian, List.length_cons, Nat.pow_succ']
    omega

theorem eq_of_readNat {width n : Nat} {bs rest : Bytes} (h : readNat width bs = some (n, rest)) :
    bs = littleEndian width n ++ rest ∧ n < 256 ^ width := by
  obtain ⟨⟨word, rest'⟩, hr, hn⟩ := Option.map_eq_some_iff.mp h
  cases hn
  obtain ⟨rfl, rfl⟩ := eq_of_readBytes hr
  exact ⟨by rw [littleEndian_ofLittleEndian], ofLittleEndian_lt word⟩

theorem eq_of_readInt32 {x : Int32} {bs rest : Bytes} (h : readInt32 bs = some (x, rest)) :
    bs = int32Bytes x ++ rest := by
  obtain ⟨⟨n, rest'⟩, hr, hx⟩ := Option.map_eq_some_iff.mp h
  cases hx
  obtain ⟨rfl, hn⟩ := eq_of_readNat hr
  rw [int32Bytes, UInt32.toUInt32_toInt32, UInt32.toNat_ofNat', Nat.mod_eq_of_lt (by omega)]

theorem eq_of_readInt64 {x : Int64} {bs rest : Bytes} (h : readInt64 bs = some (x, rest)) :
    bs = int64Bytes x ++ rest := by
  obtain ⟨⟨n, rest'⟩, hr, hx⟩ := Option.map_eq_some_iff.mp h
  cases hx
  obtain ⟨rfl, hn⟩ := eq_of_readNat hr
  rw [int64Bytes, UInt64.toUInt64_toInt64, UInt64.toNat_ofNat', Nat.mod_eq_of_lt (by omega)]

theorem eq_of_readWord {x : Int32} {bs rest : Bytes} (h : readWord bs = some (x, rest)) :
    bs = ObjectId.wordBytes x ++ rest := by
  obtain ⟨⟨word, rest'⟩, hr, hx⟩ := Option.map_eq_some_iff.mp h
  cases hx
  obtain ⟨rfl, hl⟩ := eq_of_readBytes hr
  have hlt := ofLittleEndian_lt word.reverse
  have hword := littleEndian_ofLittleEndian word.reverse
  rw [List.length_reverse, hl] at hlt hword
  rw [ObjectId.wordBytes, UInt32.toUInt32_toInt32, ofBigEndian, UInt32.toNat_ofNat',
    Nat.mod_eq_of_lt (by omega), bigEndian, hword, List.reverse_reverse]

theorem notMem_of_zero_notMem_utf8 {s : String} (h : 0 ∉ utf8 s) : '\x00' ∉ s.toList := by
  intro hs
  exact h (List.mem_flatMap.mpr ⟨'\x00', hs, by decide⟩)

theorem eq_of_readCString {s : String} {bs rest : Bytes} (h : readCString bs = some (s, rest)) :
    bs = terminated s ++ rest ∧ '\x00' ∉ s.toList := by
  unfold readCString at h
  cases hd : bs.dropWhile (· != 0) with
  | nil => rw [hd] at h; cases h
  | cons b tail =>
    rw [hd] at h
    obtain ⟨t, ht, he⟩ := Option.map_eq_some_iff.mp h
    cases he
    have hb : b = 0 := by
      have hp := List.head?_dropWhile_not (· != 0) bs
      simpa [hd] using hp
    subst hb
    have hu := eq_utf8_of_decodeUtf8? ht
    refine ⟨?_, notMem_of_zero_notMem_utf8 ?_⟩
    · have hsplit := @List.takeWhile_append_dropWhile _ (· != 0) bs
      rw [hd, hu] at hsplit
      rw [terminated, List.append_assoc, List.singleton_append, hsplit]
    · rw [← hu]
      intro h0
      have hne := List.all_eq_true.mp List.all_takeWhile 0 h0
      simp at hne

namespace WireValue

theorem eq_of_readLength {n : Nat} {bs rest : Bytes} (h : readLength bs = some (n, rest)) :
    bs = lengthField n ++ rest ∧ n < lengthBound := by
  obtain ⟨⟨m, tail⟩, hr, hn⟩ := Option.bind_eq_some_iff.mp h
  dsimp only at hn
  split at hn
  · rename_i hlt
    cases hn
    exact ⟨(eq_of_readNat hr).1, hlt⟩
  · cases hn

theorem eq_of_readUntilZero {count : Nat} {bs text rest : Bytes}
    (h : readUntilZero count bs = some (text, rest)) :
    bs = text ++ 0 :: rest ∧ text.length = count := by
  unfold readUntilZero at h
  split at h
  · rename_i tail hd
    cases h
    have hlt : count < bs.length := by
      have hl := congrArg List.length hd
      simp only [List.length_drop, List.length_cons] at hl
      omega
    exact ⟨by rw [← hd, List.take_append_drop], List.length_take_of_le (by omega)⟩
  · cases h

theorem eq_of_readText {s : String} {bs rest : Bytes} (h : readText bs = some (s, rest)) :
    bs = prefixed s ++ rest := by
  obtain ⟨⟨n, tail⟩, hn, h⟩ := Option.bind_eq_some_iff.mp h
  dsimp only at h
  split at h
  · cases h
  · rename_i hpos
    obtain ⟨⟨text, tail'⟩, ht, h⟩ := Option.bind_eq_some_iff.mp h
    obtain ⟨t, hd, h⟩ := Option.bind_eq_some_iff.mp h
    cases h
    obtain ⟨rfl, hlen⟩ := eq_of_readUntilZero ht
    have hu : text = utf8 s := eq_utf8_of_decodeUtf8? hd
    subst hu
    rw [(eq_of_readLength hn).1, prefixed, terminated, hlen, Nat.sub_add_cancel (by omega)]
    simp

/-- The content of a container that is read fills its length. -/
theorem eq_of_readEnclosed {nested : Bytes → Option Fields} {fields : Fields} {bs rest : Bytes}
    (h : readEnclosed nested bs = some (fields, rest)) :
    ∃ content, nested content = some fields ∧ bs = enclosed content ++ rest ∧
      (enclosed content).length < lengthBound := by
  obtain ⟨⟨n, tail⟩, hn, h⟩ := Option.bind_eq_some_iff.mp h
  dsimp only at h
  split at h
  · cases h
  · rename_i hpos
    obtain ⟨⟨content, tail'⟩, hc, h⟩ := Option.bind_eq_some_iff.mp h
    obtain ⟨fs, hf, h⟩ := Option.bind_eq_some_iff.mp h
    cases h
    obtain ⟨rfl, hlen⟩ := eq_of_readUntilZero hc
    obtain ⟨rfl, hlt⟩ := eq_of_readLength hn
    have hsum : content.length + 5 = n := by omega
    refine ⟨content, hf, ?_, by rw [length_enclosed]; omega⟩
    rw [enclosed, hsum]
    simp

/-- What a reader of content gives is what stands there, and can be read back. -/
def Exact (nested : Bytes → Option Fields) : Prop :=
  ∀ bs fields, nested bs = some fields → bs = content fields ∧ ReadableFields fields

theorem Exact.enclosed {nested : Bytes → Option Fields} (he : Exact nested) {fields : Fields}
    {bs rest : Bytes} (h : readEnclosed nested bs = some (fields, rest)) :
    bs = BsonWriter.enclosed (content fields) ++ rest ∧ ReadableFields fields ∧
      (BsonWriter.enclosed (content fields)).length < lengthBound := by
  obtain ⟨bytes, hb, rfl, hl⟩ := eq_of_readEnclosed h
  obtain ⟨rfl, hr⟩ := he bytes fields hb
  exact ⟨rfl, hr, hl⟩

theorem eq_of_readBinary {v : WireValue} {bs rest : Bytes}
    (h : readBinary bs = some (v, rest)) :
    bs = v.payload ++ rest ∧ v.Readable ∧ v.type = .binary := by
  obtain ⟨⟨n, tail⟩, hn, h⟩ := Option.bind_eq_some_iff.mp h
  obtain ⟨⟨subtype, tail'⟩, hs, h⟩ := Option.bind_eq_some_iff.mp h
  obtain ⟨⟨data, tail''⟩, hd, h⟩ := Option.bind_eq_some_iff.mp h
  cases h
  obtain ⟨rfl, -⟩ := eq_of_readLength hn
  obtain ⟨rfl, hsl⟩ := eq_of_readBytes hs
  obtain ⟨rfl, hdl⟩ := eq_of_readBytes hd
  obtain ⟨b, rfl⟩ := List.length_eq_one_iff.mp hsl
  exact ⟨by simp [payload], hdl, rfl⟩

theorem eq_of_readBoolean {v : WireValue} {bs rest : Bytes}
    (h : readBoolean bs = some (v, rest)) :
    bs = v.payload ++ rest ∧ v.Readable ∧ v.type = .boolean := by
  unfold readBoolean at h
  split at h <;> cases h <;> exact ⟨rfl, trivial, rfl⟩

theorem eq_of_readObjectId {v : WireValue} {bs rest : Bytes}
    (h : readObjectId bs = some (v, rest)) :
    bs = v.payload ++ rest ∧ v.Readable ∧ v.type = .objectId := by
  obtain ⟨⟨time, tail⟩, ht, h⟩ := Option.bind_eq_some_iff.mp h
  obtain ⟨⟨machine, tail'⟩, hm, h⟩ := Option.bind_eq_some_iff.mp h
  obtain ⟨⟨increment, tail''⟩, hi, h⟩ := Option.bind_eq_some_iff.mp h
  cases h
  rw [eq_of_readWord ht, eq_of_readWord hm, eq_of_readWord hi]
  exact ⟨by simp [payload], trivial, rfl⟩

theorem eq_of_readRegex {v : WireValue} {bs rest : Bytes} (h : readRegex bs = some (v, rest)) :
    bs = v.payload ++ rest ∧ v.Readable ∧ v.type = .regularExpression := by
  obtain ⟨⟨pattern, tail⟩, hp, h⟩ := Option.bind_eq_some_iff.mp h
  obtain ⟨⟨options, tail'⟩, ho, h⟩ := Option.bind_eq_some_iff.mp h
  cases h
  obtain ⟨rfl, hpz⟩ := eq_of_readCString hp
  obtain ⟨rfl, hoz⟩ := eq_of_readCString ho
  exact ⟨by simp [payload], ⟨hpz, hoz⟩, rfl⟩

theorem eq_of_readTimestamp {v : WireValue} {bs rest : Bytes}
    (h : readTimestamp bs = some (v, rest)) :
    bs = v.payload ++ rest ∧ v.Readable ∧ v.type = .timestamp := by
  obtain ⟨⟨increment, tail⟩, hi, h⟩ := Option.bind_eq_some_iff.mp h
  obtain ⟨⟨time, tail'⟩, ht, h⟩ := Option.bind_eq_some_iff.mp h
  cases h
  rw [eq_of_readInt32 hi, eq_of_readInt32 ht]
  exact ⟨by simp [payload], trivial, rfl⟩

theorem eq_of_readCodeWithScope {nested : Bytes → Option Fields} (he : Exact nested)
    {v : WireValue} {bs rest : Bytes} (h : readCodeWithScope nested bs = some (v, rest)) :
    bs = v.payload ++ rest ∧ v.Readable ∧ v.type = .javaScriptCodeWithScope := by
  obtain ⟨⟨total, tail⟩, ht, h⟩ := Option.bind_eq_some_iff.mp h
  obtain ⟨⟨text, tail'⟩, hx, h⟩ := Option.bind_eq_some_iff.mp h
  obtain ⟨⟨scope, tail''⟩, hs, h⟩ := Option.bind_eq_some_iff.mp h
  dsimp only at hx hs h
  split at h
  · rename_i htotal
    cases h
    obtain ⟨rfl, -⟩ := eq_of_readLength ht
    obtain rfl := eq_of_readText hx
    obtain ⟨rfl, hr, -⟩ := he.enclosed hs
    simp only [List.length_append, length_lengthField] at htotal
    have hsum : total = 4 + (prefixed text).length +
        (BsonWriter.enclosed (content scope)).length := by omega
    exact ⟨by rw [payload, ← hsum]; simp, hr, rfl⟩
  · cases h

/-- A value that is read stands there as it is written, and has the type under
which it is read. -/
theorem eq_of_readPayload {nested : Bytes → Option Fields} (he : Exact nested) {v : WireValue}
    {type : ElementType} {bs rest : Bytes} (h : readPayload nested bs type = some (v, rest)) :
    bs = v.payload ++ rest ∧ v.Readable ∧ v.type = type := by
  cases type with
  | double =>
    obtain ⟨⟨n, tail⟩, hn, hv⟩ := Option.map_eq_some_iff.mp h
    cases hv
    obtain ⟨rfl, hlt⟩ := eq_of_readNat hn
    refine ⟨?_, trivial, rfl⟩
    rw [payload, UInt64.toNat_ofNat', Nat.mod_eq_of_lt (by omega)]
  | string | javaScriptCode | symbol =>
    obtain ⟨⟨s, tail⟩, hs, hv⟩ := Option.map_eq_some_iff.mp h
    cases hv
    exact ⟨eq_of_readText hs, trivial, rfl⟩
  | embeddedDocument | array =>
    obtain ⟨⟨fs, tail⟩, hf, hv⟩ := Option.map_eq_some_iff.mp h
    cases hv
    obtain ⟨rfl, hr, -⟩ := he.enclosed hf
    exact ⟨by rw [payload], hr, rfl⟩
  | binary => exact eq_of_readBinary h
  | objectId => exact eq_of_readObjectId h
  | boolean => exact eq_of_readBoolean h
  | dateTime | int64 =>
    obtain ⟨⟨x, tail⟩, hx, hv⟩ := Option.map_eq_some_iff.mp h
    cases hv
    exact ⟨eq_of_readInt64 hx, trivial, rfl⟩
  | null =>
    cases h
    exact ⟨rfl, trivial, rfl⟩
  | regularExpression => exact eq_of_readRegex h
  | javaScriptCodeWithScope => exact eq_of_readCodeWithScope he h
  | int32 =>
    obtain ⟨⟨x, tail⟩, hx, hv⟩ := Option.map_eq_some_iff.mp h
    cases hv
    exact ⟨eq_of_readInt32 hx, trivial, rfl⟩
  | timestamp => exact eq_of_readTimestamp h
  | undefined | dbPointer | decimal128 | maxKey | minKey => cases h

theorem tag_of_ofTag? {b : UInt8} {type : ElementType} (h : ElementType.ofTag? b = some type) :
    type.tag = b := by
  simpa using List.find?_some h

theorem exact_readContent (rounds : Nat) : Exact (readContent rounds) := by
  induction rounds with
  | zero =>
    intro bs fields h
    cases bs with
    | nil => cases h; exact ⟨rfl, trivial⟩
    | cons b bs => cases h
  | succ rounds ih =>
    intro bs fields h
    cases bs with
    | nil => cases h; exact ⟨rfl, trivial⟩
    | cons b bs =>
      obtain ⟨type, ht, h⟩ := Option.bind_eq_some_iff.mp h
      obtain ⟨⟨key, tail⟩, hk, h⟩ := Option.bind_eq_some_iff.mp h
      obtain ⟨⟨v, tail'⟩, hv, h⟩ := Option.bind_eq_some_iff.mp h
      obtain ⟨gs, hg, h⟩ := Option.bind_eq_some_iff.mp h
      cases h
      obtain ⟨rfl, hkz⟩ := eq_of_readCString hk
      obtain ⟨rfl, hr, rfl⟩ := eq_of_readPayload ih hv
      obtain ⟨rfl, hrest⟩ := ih _ _ hg
      rw [content_cons, element, tag_of_ofTag? ht]
      exact ⟨by simp, hkz, hr, hrest⟩

theorem eq_of_readDocument {d : Fields} {bs rest : Bytes} (h : readDocument bs = some (d, rest)) :
    bs = enclosed (content d) ++ rest ∧ ReadableFields d ∧
      (enclosed (content d)).length < lengthBound :=
  (exact_readContent bs.length).enclosed h

theorem eq_of_readDocumentsIn {rounds : Nat} {bs : Bytes} {documents : List Fields}
    (h : readDocumentsIn rounds bs = some documents) : bs = encodings documents ∧
      ∀ d ∈ documents, ReadableFields d ∧ (enclosed (content d)).length < lengthBound := by
  induction rounds generalizing bs documents with
  | zero =>
    cases bs with
    | nil => cases h; exact ⟨rfl, by simp⟩
    | cons b bs => cases h
  | succ rounds ih =>
    cases bs with
    | nil => cases h; exact ⟨rfl, by simp⟩
    | cons b bs =>
      obtain ⟨⟨d, tail⟩, hd, h⟩ := Option.bind_eq_some_iff.mp h
      obtain ⟨ds, hds, h⟩ := Option.bind_eq_some_iff.mp h
      cases h
      obtain ⟨hb, hr⟩ := eq_of_readDocument hd
      obtain ⟨rfl, hrest⟩ := ih hds
      rw [hb, encodings_cons]
      refine ⟨rfl, fun e he => ?_⟩
      obtain rfl | he := List.mem_cons.mp he
      · exact hr
      · exact hrest e he

/-- The reader accepts the encodings of documents that can be read back, and no
other byte string. -/
theorem readDocuments_eq_some_iff {bs : Bytes} {documents : List Fields} :
    readDocuments bs = some documents ↔ bs = encodings documents ∧
      ∀ d ∈ documents, ReadableFields d ∧ (enclosed (content d)).length < lengthBound := by
  refine ⟨eq_of_readDocumentsIn, ?_⟩
  rintro ⟨rfl, hd⟩
  exact readDocuments_encodings (fun d hm => (hd d hm).1) fun d hm => (hd d hm).2

end WireValue

end BsonWriter
