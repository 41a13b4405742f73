import BsonWriter.Proofs.Bytes.Hexadecimal
import BsonWriter.Proofs.Scalar.Accepting
import BsonWriter.Proofs.Wire.Canonical

/-!
The three words of an object id. Its bytes are those of its words, and these are what is
written of it (`ObjectId.words_agree`). Ids, the triples of their words without sign, and their
texts are ordered alike, since comparing two numbers digit by digit from the front is
comparing the numbers (`compare_eq_then`).
-/

namespace BsonWriter

open BsonWriter.Action

/-! ## Comparing digit by digit -/

/-- Numbers are compared by their last digit if they agree in all digits before it. -/
theorem compare_eq_then (m n base : Nat) :
    compare m n = (compare (m / base) (n / base)).then (compare (m % base) (n % base)) := by
  rcases Nat.lt_trichotomy (m / base) (n / base) with h | h | h
  · rw [Nat.compare_eq_lt.mpr h, Nat.compare_eq_lt.mpr (Nat.lt_of_div_lt_div h)]
    rfl
  · have hm := Nat.div_add_mod m base
    have hn := Nat.div_add_mod n base
    rw [h] at hm
    have hlt : m < n ↔ m % base < n % base := by omega
    have hgt : n < m ↔ n % base < m % base := by omega
    rw [Nat.compare_eq_eq.mpr h, Ordering.eq_then]
    simp only [Nat.compare_eq_ite_lt, hlt, hgt]
  · rw [Nat.compare_eq_gt.mpr h, Nat.compare_eq_gt.mpr (Nat.lt_of_div_lt_div h)]
    rfl

theorem compare_append {α : Type} [Ord α] {a b : List α} (h : a.length = b.length)
    (c d : List α) : compare (a ++ c) (b ++ d) = (compare a b).then (compare c d) := by
  induction a generalizing b with
  | nil =>
    obtain rfl : b = [] := List.eq_nil_of_length_eq_zero h.symm
    rfl
  | cons x a ih =>
    cases b with
    | nil => cases h
    | cons y b =>
      simp only [List.cons_append, List.compare_cons_cons, ih (Nat.succ.inj h),
        Ordering.then_assoc]

/-- The bytes of two numbers, most significant first, are ordered as the numbers. -/
theorem compare_bigEndian (width : Nat) {m n : Nat} (hm : m < 256 ^ width)
    (hn : n < 256 ^ width) : compare (bigEndian width m) (bigEndian width n) = compare m n := by
  induction width generalizing m n with
  | zero =>
    obtain ⟨rfl, rfl⟩ : m = 0 ∧ n = 0 := ⟨by omega, by omega⟩
    rfl
  | succ width ih =>
    rw [Nat.pow_succ] at hm hn
    have hsplit : ∀ k, bigEndian (width + 1) k = bigEndian width (k / 256) ++ [UInt8.ofNat k] := by
      intro k
      rw [bigEndian, littleEndian, List.reverse_cons, bigEndian]
    rw [hsplit, hsplit, compare_append (by simp), ih (by omega) (by omega),
      compare_eq_then m n 256]
    simp [UInt8.compare_eq_toNat_compare_toNat]

namespace Hex

theorem compare_digit {m n : Nat} (hm : m < 16) (hn : n < 16) :
    compare (digit m) (digit n) = compare m n :=
  have hall : ∀ m n : Fin 16, compare (digit m) (digit n) = compare m.val n.val := by
    decide +kernel
  hall ⟨m, hm⟩ ⟨n, hn⟩

theorem compare_byteText (b c : UInt8) : compare (byteText b) (byteText c) = compare b c := by
  have hb := b.toNat_lt
  have hc := c.toNat_lt
  simp only [byteText, List.compare_cons_cons, List.compare_nil_nil, Ordering.then_eq]
  rw [compare_digit (by omega) (by omega), compare_digit (by omega) (by omega),
    UInt8.compare_eq_toNat_compare_toNat, compare_eq_then b.toNat c.toNat 16]

theorem compare_flatMap_byteText (bs cs : Bytes) :
    compare (bs.flatMap byteText) (cs.flatMap byteText) = compare bs cs := by
  induction bs generalizing cs with
  | nil => cases cs <;> rfl
  | cons b bs ih =>
    cases cs with
    | nil => rfl
    | cons c cs =>
      have hlength : (byteText b).length = (byteText c).length := rfl
      rw [List.flatMap_cons, List.flatMap_cons, compare_append hlength, compare_byteText, ih,
        List.compare_cons_cons]

end Hex

theorem compare_chars (cs ds : List Char) : compare cs ds = compareOfLessAndEq cs ds := by
  induction cs generalizing ds with
  | nil => cases ds <;> rfl
  | cons c cs ih =>
    cases ds with
    | nil => rfl
    | cons d ds =>
      rw [List.compare_cons_cons, ih, show compare c d = compareOfLessAndEq c d from rfl]
      simp only [compareOfLessAndEq, List.cons_lt_cons_iff, List.cons.injEq]
      by_cases hlt : c < d
      · simp [hlt]
      · by_cases heq : c = d
        · simp [heq, Ordering.eq_then]
        · simp [hlt, heq]

/-- Texts are ordered as the lists of their characters. -/
theorem compare_toList (s t : String) : compare s.toList t.toList = compare s t := by
  rw [compare_chars, show compare s t = compareOfLessAndEq s t from rfl]
  simp only [compareOfLessAndEq, String.lt_iff, String.toList_inj]

/-! ## Words -/

namespace ObjectId

theorem ofBigEndian_wordBytes (x : Int32) : ofBigEndian (wordBytes x) = x.toUInt32.toNat := by
  have hx := x.toUInt32.toNat_lt
  rw [wordBytes, ofBigEndian, bigEndian, List.reverse_reverse, ofLittleEndian_littleEndian]
  omega

/-- A word is read from its own bytes. -/
theorem word_eq {id : ObjectId} {offset : Nat} {x : Int32}
    (h : (id.bytes.drop offset).take 4 = wordBytes x) : id.word offset = x := by
  rw [word, h, ofBigEndian_wordBytes, UInt32.ofNat_toNat, Int32.toInt32_toUInt32]

theorem words_ofParts (time machine increment : Int32) :
    (ofParts time machine increment).time = time ∧
      (ofParts time machine increment).machine = machine ∧
      (ofParts time machine increment).increment = increment :=
  ⟨word_eq rfl, word_eq rfl, word_eq rfl⟩

theorem wordBytes_word (id : ObjectId) {offset : Nat} (h : offset + 4 ≤ 12) :
    wordBytes (id.word offset) = (id.bytes.drop offset).take 4 := by
  have hlength := id.length_bytes
  have hread : readWord (id.bytes.drop offset) =
      some (id.word offset, (id.bytes.drop offset).drop 4) := by
    rw [readWord, readBytes, if_pos (by rw [List.length_drop]; omega)]
    rfl
  rw [eq_of_readWord hread, List.take_left' (by simp [wordBytes])]

/-- An id consists of its words. -/
theorem bytes_eq_words (id : ObjectId) :
    id.bytes = wordBytes id.time ++ (wordBytes id.machine ++ wordBytes id.increment) := by
  have hlength := id.length_bytes
  rw [time, machine, increment, wordBytes_word id (by decide), wordBytes_word id (by decide),
    wordBytes_word id (by decide), List.drop_zero]
  have hlast : (id.bytes.drop 8).take 4 = id.bytes.drop 8 :=
    List.take_of_length_le (by rw [List.length_drop]; omega)
  rw [hlast, show id.bytes.drop 8 = (id.bytes.drop 4).drop 4 by rw [List.drop_drop],
    List.take_append_drop, List.take_append_drop]

theorem ofParts_words (id : ObjectId) : ofParts id.time id.machine id.increment = id := by
  have hbytes : (ofParts id.time id.machine id.increment).bytes = id.bytes := by
    rw [bytes_eq_words id]
    exact List.append_assoc ..
  cases id
  exact (ObjectId.mk.injEq ..).mpr hbytes

/-- What stands on the wire for an id are its bytes. -/
theorem objectIdBytes_eq (id : ObjectId) : Primitive.objectIdBytes id = id.bytes := by
  simp [Primitive.objectIdBytes, int32Bytes_swapBytes, ← bytes_eq_words]

theorem compare_wordBytes (x y : Int32) :
    compare (wordBytes x) (wordBytes y) = compare x.toUInt32 y.toUInt32 := by
  have hx := x.toUInt32.toNat_lt
  have hy := y.toUInt32.toNat_lt
  rw [wordBytes, wordBytes, compare_bigEndian 4 (by omega) (by omega),
    UInt32.compare_eq_toNat_compare_toNat]

/-- Ids are ordered by the first of their words in which they differ, without its sign. -/
theorem compare_eq_words (a b : ObjectId) : compare a b =
    (compare a.time.toUInt32 b.time.toUInt32).then
      ((compare a.machine.toUInt32 b.machine.toUInt32).then
        (compare a.increment.toUInt32 b.increment.toUInt32)) := by
  have hlength : ∀ x y : Int32, (wordBytes x).length = (wordBytes y).length := by
    simp [wordBytes]
  rw [show compare a b = compare a.bytes b.bytes from rfl, bytes_eq_words a, bytes_eq_words b,
    compare_append (hlength _ _), compare_append (hlength _ _)]
  simp only [compare_wordBytes]

theorem compare_hex (a b : ObjectId) : compare a.hex b.hex = compare a b := by
  rw [← compare_toList, hex, hex, Hex.text, Hex.text, String.toList_ofList, String.toList_ofList,
    Hex.compare_flatMap_byteText]
  rfl

/-- The words, the bytes, the wire form, the text and the order of ids agree. An id has the
words it is made of, and is made of its words. Written least significant byte first, the
words with their bytes swapped are the bytes of the id, and these are appended when the id is
written. Two ids are ordered as the triples of their words without sign, and as their texts. -/
theorem words_agree :
    (∀ t m i, (ofParts t m i).time = t ∧ (ofParts t m i).machine = m ∧
      (ofParts t m i).increment = i) ∧
    (∀ id : ObjectId, ofParts id.time id.machine id.increment = id) ∧
    (∀ id : ObjectId, [id.time, id.machine, id.increment].flatMap
      (fun word => int32Bytes (swapBytes word)) = id.bytes) ∧
    (∀ w : Writer, w.AcceptsScalar → ∃ u, Admits .scalar .objectId w u ∧ ∀ id : ObjectId,
      (write .direct (.objectId id)).run w =
        (tracked drainIfStreaming).run (u.put id.bytes)) ∧
    (∀ a b : ObjectId, compare a b = (compare a.time.toUInt32 b.time.toUInt32).then
      ((compare a.machine.toUInt32 b.machine.toUInt32).then
        (compare a.increment.toUInt32 b.increment.toUInt32))) ∧
    ∀ a b : ObjectId, compare a b = compare a.hex b.hex := by
  refine ⟨words_ofParts, ofParts_words, objectIdBytes_eq, fun w hw => ?_, compare_eq_words,
    fun a b => (compare_hex a b).symm⟩
  obtain ⟨u, hu, hrun⟩ := hw.run_write .objectId
  refine ⟨u, hu, fun id => ?_⟩
  rw [hrun (.objectId id) rfl, ← run_complete, ← objectIdBytes_eq]
  rfl

/-- Words on both sides of zero, behind a field name: the negative ones come last. -/
theorem words_agree_negative :
    let w := (Step.run ⟨Writer.onStorage {} {} [], []⟩
      [.begin .container .startObject .document, .name "i"]).writer
    let id := ofParts 1 (-2) 3
    (∃ u, Admits .scalar .objectId w u ∧ (write .direct (.objectId id)).run w =
      (tracked drainIfStreaming).run (u.put [0, 0, 0, 1, 255, 255, 255, 254, 0, 0, 0, 3])) ∧
      compare (ofParts 1 2 3) id = .lt ∧ compare (ofParts 1 2 3).hex id.hex = .lt := by
  intro w id
  obtain ⟨hparts, -, -, hwrite, horder, htext⟩ := words_agree
  have hnull : ∃ w', (write .direct .null).run w = .ok () w' := ⟨_, rfl⟩
  obtain ⟨u, hu, hrun⟩ := hwrite w (hnull.elim fun _ => .of_write)
  have hlt : compare (ofParts 1 2 3) id = .lt := by
    rw [horder]
    simp only [id, hparts]
    decide
  exact ⟨⟨u, hu, hrun id⟩, hlt, htext _ _ ▸ hlt⟩

end ObjectId

end BsonWriter
