import BsonWriter.Bytes.LittleEndian

/-!
Byte strings as hexadecimal text: two digits a byte, written in lower case and
read in either case. Reading takes the UTF-8 bytes of a text and reports the
first fault, an odd number of bytes before any byte that is no digit.
-/

namespace BsonWriter.Hex

/-- The digit of a number below sixteen. -/
def digit (n : Nat) : Char := if n < 10 then Char.ofNat (48 + n) else Char.ofNat (87 + n)

def byteText (b : UInt8) : List Char := [digit (b.toNat / 16), digit (b.toNat % 16)]

/-- Two lower-case digits for each byte. -/
def text (bs : Bytes) : String := String.ofList (bs.flatMap byteText)

/-- The value of an ASCII hexadecimal digit. -/
def digitValue? (b : UInt8) : Option UInt8 :=
  if 48 ≤ b ∧ b ≤ 57 then some (b - 48)
  else if 97 ≤ b ∧ b ≤ 102 then some (b - 87)
  else if 65 ≤ b ∧ b ≤ 70 then some (b - 55)
  else none

inductive Fault
  | oddLength
  | badDigit (byte : UInt8) (index : Nat)
  deriving DecidableEq, Repr

/-- Reads digit pairs from position `index` on and stops at the first byte
that is no digit. -/
def parsePairs (index : Nat) : Bytes → Except Fault Bytes
  | high :: low :: rest =>
    match digitValue? high, digitValue? low with
    | none, _ => .error (.badDigit high index)
    | some _, none => .error (.badDigit low (index + 1))
    | some h, some l =>
      match parsePairs (index + 2) rest with
      | .ok bs => .ok ((16 * h + l) :: bs)
      | .error e => .error e
  | _ => .ok []

/-- The bytes that a text of digit pairs, given as ASCII bytes, stands for. -/
def parse (digits : Bytes) : Except Fault Bytes :=
  if digits.length % 2 = 1 then .error .oddLength else parsePairs 0 digits

end BsonWriter.Hex
