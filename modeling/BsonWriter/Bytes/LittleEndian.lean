/-!
Byte strings and fixed-width integers as bytes. A number is written least
significant byte first; the readers take the same number of bytes back.
-/

namespace BsonWriter

/-- A byte string. Everything the writer produces is one. -/
abbrev Bytes := List UInt8

/-- The `width` low bytes of `n`, least significant first. -/
def littleEndian : (width n : Nat) → Bytes
  | 0, _ => []
  | width + 1, n => UInt8.ofNat n :: littleEndian width (n / 256)

/-- The number whose bytes, least significant first, are `bs`. -/
def ofLittleEndian : Bytes → Nat
  | [] => 0
  | b :: bs => b.toNat + 256 * ofLittleEndian bs

@[simp] theorem length_littleEndian (width n : Nat) : (littleEndian width n).length = width := by
  induction width generalizing n with
  | zero => rfl
  | succ width ih => simp [littleEndian, ih]

/-- The `width` low bytes of `n`, most significant first. -/
def bigEndian (width n : Nat) : Bytes := (littleEndian width n).reverse

def ofBigEndian (bs : Bytes) : Nat := ofLittleEndian bs.reverse

@[simp] theorem length_bigEndian (width n : Nat) : (bigEndian width n).length = width := by
  simp [bigEndian]

/-- A signed 32-bit integer in two's complement. -/
def int32Bytes (x : Int32) : Bytes := littleEndian 4 x.toUInt32.toNat

/-- A word with its bytes in the opposite order. -/
def swapBytes (x : Int32) : Int32 :=
  let v := x.toUInt32
  (v % 256 * 16777216 + v / 256 % 256 * 65536 + v / 65536 % 256 * 256 + v / 16777216).toInt32

/-- A signed 64-bit integer in two's complement. -/
def int64Bytes (x : Int64) : Bytes := littleEndian 8 x.toUInt64.toNat

end BsonWriter
