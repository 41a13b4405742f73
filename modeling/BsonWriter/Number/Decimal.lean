import BsonWriter.Number.Format
import BsonWriter.Number.Integer

/-!
Decimal numbers of any size: an integer and the number of its digits after the
point, which may be negative. Nothing is normalised, so `1.50` and `1.5` are
different. The conversion to a double rounds once for positive scales; integers
are rounded from their leading bits, and large powers of ten are multiplied out
in doubles.
-/

namespace BsonWriter

/-- The number `unscaled * 10 ^ (-scale)`. -/
structure Decimal where
  unscaled : Int
  scale : Int
  deriving DecidableEq, Repr, Inhabited

namespace Decimal

/-! ## Text -/

/-- Reads `[sign]digits[.digits][e[sign]digits]`; the digits on one side of the
point may be missing. -/
def parse? (s : String) : Option Decimal :=
  let isMark := fun c : Char => c == 'e' || c == 'E'
  let mantissa := s.toList.takeWhile (!isMark ·)
  let exponent := match s.toList.dropWhile (!isMark ·) with
    | [] => some 0
    | _ :: digits => Integer.ofChars? digits
  let whole := mantissa.takeWhile (· != '.')
  let fraction := (mantissa.dropWhile (· != '.')).drop 1
  match Integer.ofChars? (whole ++ fraction), exponent with
  | some n, some e => some ⟨n, (fraction.filter (· != '_')).length - e⟩
  | _, _ => none

def zeros (n : Nat) : List Char := List.replicate n '0'

/-- The text of a number with the given digits. Small fractions get an exponent
when more than five zeros would follow the point, and large integers when more
than fifteen zeros would follow the digits. -/
def digitsText (digits : List Char) (scale : Int) : List Char :=
  if 0 < scale ∧ 5 < scale - digits.length then
    digits.take 1 ++ (if digits.length = 1 then [] else '.' :: digits.drop 1) ++
      'E' :: (Integer.text (digits.length - scale - 1)).toList
  else if 15 < -scale then digits ++ ['e', '+'] ++ (Integer.text (-scale)).toList
  else if scale ≤ 0 then digits ++ zeros (-scale).toNat
  else
    let filled := zeros (scale.toNat + 1 - digits.length) ++ digits
    let whole := filled.length - scale.toNat
    filled.take whole ++ '.' :: filled.drop whole

/-- The decimal text; every digit that was given is kept. -/
def text (d : Decimal) : String :=
  let scale := if d.unscaled = 0 then 0 else d.scale
  String.ofList ((if d.unscaled < 0 then ['-'] else []) ++
    digitsText d.unscaled.natAbs.repr.toList scale)

/-! ## The double of a decimal -/

/-- About how many decimal digits `n` has: the bits of `n` and one more, times
the decimal logarithm of two. -/
def digitEstimate (n : Nat) : Nat := (n.log2 + 2) * 30102999566398119521 / 100000000000000000000

/-- Drops digits of a long magnitude, nineteen at a time, as long as at least
twenty-five remain. -/
def shorten (d : Decimal) : Nat × Int :=
  let blocks := (digitEstimate d.unscaled.natAbs - 25) / 19
  (d.unscaled.natAbs / Nat.pow 10 (19 * blocks), d.scale - 19 * blocks)

/-- The magnitude of a double for `n * 10 ^ (-scale)`. A scale outside 32 bits
gives infinity, also for tiny numbers. -/
def magnitude (n : Nat) (scale : Int) : Nat :=
  if scale ≤ -0x80000000 ∨ 0x80000000 ≤ scale then Format.double.infinity
  else if scale ≤ 0 then
    Format.double.mul (Format.double.ofNat n)
      (Format.double.power (Format.double.round 10 1) (-scale).toNat)
  else if n.repr.length + 325 ≤ scale.toNat then 0
  else Format.double.round n (Nat.pow 10 scale.toNat)

/-- The double of a decimal. Zero is positive. -/
def toDouble (d : Decimal) : Double :=
  if d.unscaled = 0 then .ofMagnitude false 0
  else if d.scale = 0 then
    .ofMagnitude (d.unscaled < 0) (Format.double.ofNat d.unscaled.natAbs)
  else
    let (n, scale) := d.shorten
    .ofMagnitude (d.unscaled < 0) (magnitude n scale)

/-- The double rounded once more. -/
def toSingle (d : Decimal) : Single := d.toDouble.toSingle

end Decimal

end BsonWriter
