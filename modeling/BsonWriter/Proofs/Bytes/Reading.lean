import Mathlib.Algebra.Group.Int.Defs
import Mathlib.Algebra.Group.Nat.Defs
import BsonWriter.Value.ObjectId

/-!
Readers for fixed-width integers and texts. Each takes back what was written
for one item and hands on the bytes after it.
-/

namespace BsonWriter

/-! ## Integers -/

/-- Takes `width` bytes. -/
def readBytes (width : Nat) (bs : Bytes) : Option (Bytes × Bytes) :=
  if width ≤ bs.length then some (bs.take width, bs.drop width) else none

/-- Takes `width` bytes as a number, least significant first. -/
def readNat (width : Nat) (bs : Bytes) : Option (Nat × Bytes) :=
  (readBytes width bs).map fun (word, rest) => (ofLittleEndian word, rest)

def readInt32 (bs : Bytes) : Option (Int32 × Bytes) :=
  (readNat 4 bs).map fun (n, rest) => ((UInt32.ofNat n).toInt32, rest)

def readInt64 (bs : Bytes) : Option (Int64 × Bytes) :=
  (readNat 8 bs).map fun (n, rest) => ((UInt64.ofNat n).toInt64, rest)

/-- Takes a big-endian word. -/
def readWord (bs : Bytes) : Option (Int32 × Bytes) :=
  (readBytes 4 bs).map fun (word, rest) => ((UInt32.ofNat (ofBigEndian word)).toInt32, rest)

theorem readBytes_append {bs : Bytes} {width : Nat} (h : bs.length = width) (rest : Bytes) :
    readBytes width (bs ++ rest) = some (bs, rest) := by
  simp [readBytes, ← h]

theorem ofLittleEndian_littleEndian (width n : Nat) :
    ofLittleEndian (littleEndian width n) = n % 256 ^ width := by
  induction width generalizing n with
  | zero => simp [littleEndian, ofLittleEndian, Nat.mod_one]
  | succ width ih =>
    have h : 256 ^ (width + 1) = 256 * 256 ^ width := Nat.pow_succ'
    rw [littleEndian, ofLittleEndian, ih, UInt8.toNat_ofNat', h, Nat.mod_mul]

theorem littleEndian_inj {width m n : Nat} (hm : m < 256 ^ width) (hn : n < 256 ^ width)
    (h : littleEndian width m = littleEndian width n) : m = n := by
  have hv := congrArg ofLittleEndian h
  rwa [ofLittleEndian_littleEndian, ofLittleEndian_littleEndian, Nat.mod_eq_of_lt hm,
    Nat.mod_eq_of_lt hn] at hv

theorem readNat_append {width n : Nat} (h : n < 256 ^ width) (rest : Bytes) :
    readNat width (littleEndian width n ++ rest) = some (n, rest) := by
  rw [readNat, readBytes_append (length_littleEndian ..)]
  simp [ofLittleEndian_littleEndian, Nat.mod_eq_of_lt h]

theorem readInt32_append (x : Int32) (rest : Bytes) :
    readInt32 (int32Bytes x ++ rest) = some (x, rest) := by
  rw [readInt32, int32Bytes, readNat_append (UInt32.toNat_lt _)]
  simp only [Option.map_some, UInt32.ofNat_toNat, Int32.toInt32_toUInt32]

theorem readInt64_append (x : Int64) (rest : Bytes) :
    readInt64 (int64Bytes x ++ rest) = some (x, rest) := by
  rw [readInt64, int64Bytes, readNat_append (UInt64.toNat_lt _)]
  simp only [Option.map_some, UInt64.ofNat_toNat, Int64.toInt64_toUInt64]

theorem readWord_append (x : Int32) (rest : Bytes) :
    readWord (ObjectId.wordBytes x ++ rest) = some (x, rest) := by
  have hx : x.toUInt32.toNat % 256 ^ 4 = x.toUInt32.toNat :=
    Nat.mod_eq_of_lt (UInt32.toNat_lt _)
  rw [readWord, readBytes_append (by simp [ObjectId.wordBytes])]
  simp only [Option.map_some, ObjectId.wordBytes, ofBigEndian, bigEndian, List.reverse_reverse,
    ofLittleEndian_littleEndian, hx, UInt32.ofNat_toNat, Int32.toInt32_toUInt32]

/-! ## Words with their bytes swapped -/

theorem littleEndian_four {a b c d : Nat} (ha : a < 256) (hb : b < 256) (hc : c < 256) :
    littleEndian 4 (a + 256 * b + 65536 * c + 16777216 * d) =
      [UInt8.ofNat a, UInt8.ofNat b, UInt8.ofNat c, UInt8.ofNat d] := by
  have hfirst : (a + 256 * b + 65536 * c + 16777216 * d) % 256 = a := by omega
  have hsecond : (a + 256 * b + 65536 * c + 16777216 * d) / 256 % 256 = b := by omega
  have hthird : (a + 256 * b + 65536 * c + 16777216 * d) / 256 / 256 % 256 = c := by omega
  have hlast : (a + 256 * b + 65536 * c + 16777216 * d) / 256 / 256 / 256 = d := by omega
  have hmod : ∀ n, UInt8.ofNat (n % 256) = UInt8.ofNat n := fun n => UInt8.ofNat_mod_size
  simp only [littleEndian]
  rw [hlast, ← hmod (_ + _), hfirst, ← hmod ((_ + _) / 256), hsecond, ← hmod ((_ + _) / 256 / 256),
    hthird]

/-- Least significant byte first after a swap is most significant byte first. -/
theorem int32Bytes_swapBytes (x : Int32) : int32Bytes (swapBytes x) = ObjectId.wordBytes x := by
  rw [int32Bytes, swapBytes, UInt32.toUInt32_toInt32, ObjectId.wordBytes, bigEndian]
  generalize x.toUInt32 = v
  have hv := v.toNat_lt
  obtain ⟨a, ha⟩ : ∃ a, a = v.toNat % 256 := ⟨_, rfl⟩
  obtain ⟨b, hb⟩ : ∃ b, b = v.toNat / 256 % 256 := ⟨_, rfl⟩
  obtain ⟨c, hc⟩ : ∃ c, c = v.toNat / 65536 % 256 := ⟨_, rfl⟩
  obtain ⟨d, hd⟩ : ∃ d, d = v.toNat / 16777216 := ⟨_, rfl⟩
  have hvalue : v.toNat = a + 256 * b + 65536 * c + 16777216 * d := by omega
  have hswapped : (v % 256 * 16777216 + v / 256 % 256 * 65536 + v / 65536 % 256 * 256 +
      v / 16777216).toNat = d + 256 * c + 65536 * b + 16777216 * a := by
    simp only [UInt32.toNat_add, UInt32.toNat_mul, UInt32.toNat_div, UInt32.toNat_mod,
      UInt32.reduceToNat, ← ha, ← hb, ← hc, ← hd]
    omega
  rw [hvalue, hswapped, littleEndian_four (by omega) (by omega) (by omega),
    littleEndian_four (by omega) (by omega) (by omega)]
  rfl

/-! ## Texts -/

/-- The text that well-formed bytes stand for. -/
def decodeUtf8? (bs : Bytes) : Option String := String.fromUTF8? bs.toByteArray

theorem decodeUtf8?_utf8 (s : String) : decodeUtf8? (utf8 s) = some s := by
  have h : (utf8 s).toByteArray = s.toByteArray := String.utf8Encode_toList
  unfold decodeUtf8? String.fromUTF8?
  rw [dif_pos (h ▸ s.isValidUTF8)]
  simp only [String.fromUTF8, h]

theorem eq_utf8_of_decodeUtf8? {bs : Bytes} {s : String} (h : decodeUtf8? bs = some s) :
    bs = utf8 s := by
  have hv : isUtf8 bs = true := by
    unfold decodeUtf8? String.fromUTF8? at h
    split at h
    · rename_i hb
      exact (ByteArray.validateUTF8_eq_true_iff).mpr hb
    · cases h
  obtain ⟨t, rfl⟩ := (isUtf8_iff bs).mp hv
  rw [decodeUtf8?_utf8] at h
  rw [Option.some.inj h]

/-- Only the null character has a zero byte in its encoding. -/
theorem zero_notMem_utf8EncodeChar {c : Char} (h : c ≠ '\x00') : 0 ∉ String.utf8EncodeChar c := by
  have hv : c.val.toNat ≠ 0 := by
    intro h0
    exact h (Char.ext (UInt32.toNat_inj.mp h0))
  have key : ∀ n : Nat, 0 < n → n < 256 → (0 : UInt8) ≠ UInt8.ofNat n := by
    intro n hp hn h0
    have := congrArg UInt8.toNat h0
    simp only [UInt8.toNat_ofNat', UInt8.toNat_zero] at this
    omega
  unfold String.utf8EncodeChar
  dsimp only
  split
  · simp only [List.mem_cons, List.not_mem_nil, or_false]
    exact key _ (by omega) (by omega)
  · split
    · simp only [List.mem_cons, List.not_mem_nil, or_false, not_or]
      exact ⟨key _ (by omega) (by omega), key _ (by omega) (by omega)⟩
    · split
      · simp only [List.mem_cons, List.not_mem_nil, or_false, not_or]
        exact ⟨key _ (by omega) (by omega), key _ (by omega) (by omega),
          key _ (by omega) (by omega)⟩
      · simp only [List.mem_cons, List.not_mem_nil, or_false, not_or]
        exact ⟨key _ (by omega) (by omega), key _ (by omega) (by omega),
          key _ (by omega) (by omega), key _ (by omega) (by omega)⟩

theorem zero_notMem_utf8 {s : String} (h : '\x00' ∉ s.toList) : 0 ∉ utf8 s := by
  unfold utf8
  rw [List.mem_flatMap]
  rintro ⟨c, hc, h0⟩
  exact zero_notMem_utf8EncodeChar (fun e => h (e ▸ hc)) h0

/-- Takes the text before the first zero byte, and that byte. -/
def readCString (bs : Bytes) : Option (String × Bytes) :=
  match bs.dropWhile (· != 0) with
  | [] => none
  | _ :: rest => (decodeUtf8? (bs.takeWhile (· != 0))).map fun s => (s, rest)

theorem readCString_append {s : String} (h : '\x00' ∉ s.toList) (rest : Bytes) :
    readCString (utf8 s ++ 0 :: rest) = some (s, rest) := by
  have hz : ∀ b ∈ utf8 s, (b != 0) = true := by
    intro b hb
    exact bne_iff_ne.mpr fun e => zero_notMem_utf8 h (e ▸ hb)
  rw [readCString, List.dropWhile_append_of_pos hz, List.takeWhile_append_of_pos hz]
  simp [decodeUtf8?_utf8]

end BsonWriter
