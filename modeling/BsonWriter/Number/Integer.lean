/-!
Integers of any size: their decimal text, and how many bits they need.
-/

namespace BsonWriter.Integer

/-- The bits of two's complement without the sign bit. -/
def bitLength (v : Int) : Nat :=
  let n := (if v < 0 then -v - 1 else v).toNat
  if n = 0 then 0 else n.log2 + 1

def toInt32? (v : Int) : Option Int32 :=
  if -0x80000000 ≤ v ∧ v < 0x80000000 then some (Int32.ofInt v) else none

def toInt64? (v : Int) : Option Int64 :=
  if -0x8000000000000000 ≤ v ∧ v < 0x8000000000000000 then some (Int64.ofInt v) else none

/-- The digits, after a minus sign if negative. -/
def text (v : Int) : String := (if v < 0 then "-" else "") ++ v.natAbs.repr

/-- The value of some decimal digits, among which underscores are ignored. -/
def ofDigits? (cs : List Char) : Option Nat :=
  (cs.filter (· != '_')).foldl
    (fun n c => n.bind fun n => if c.isDigit then some (10 * n + (c.toNat - 48)) else none)
    (some 0)

/-- A sign and the characters after it; without a sign the number is positive. -/
def splitSign : List Char → Bool × List Char
  | '-' :: cs => (true, cs)
  | '+' :: cs => (false, cs)
  | cs => (false, cs)

def ofChars? (cs : List Char) : Option Int :=
  let (negative, digits) := splitSign cs
  if digits.isEmpty then none
  else (ofDigits? digits).map fun n => if negative then -n else n

/-- Reads an optional sign and digits. -/
def parse? (s : String) : Option Int := ofChars? s.toList

end BsonWriter.Integer
