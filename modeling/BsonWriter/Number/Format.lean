/-!
Binary floating-point formats. A magnitude is held as its bit pattern without
the sign, so patterns are ordered as the values they stand for, and the pattern
after the greatest finite one is infinity. Rounding a ratio of integers goes to
the nearest value, and to the even one of two.
-/

namespace BsonWriter

/-- A format: the bits of a significand, its leading one included, and the bits
of the exponent field. -/
structure Format where
  precision : Nat
  exponentBits : Nat
  deriving DecidableEq, Repr

/-- The integer nearest to `num / den`, an exact half to the even neighbour. -/
def roundHalfEven (num den : Nat) : Nat :=
  let q := num / den
  let r := num % den
  if 2 * r < den then q else if den < 2 * r then q + 1 else q + q % 2

namespace Format

def single : Format := ⟨24, 8⟩

def double : Format := ⟨53, 11⟩

/-- The exponent of the least positive value. -/
def leastExponent (f : Format) : Int := 3 - (1 <<< (f.exponentBits - 1) : Nat) - f.precision

/-- The weight of the exponent field. -/
def step (f : Format) : Nat := 1 <<< (f.precision - 1)

/-- The pattern of infinity. Greater patterns are no numbers. -/
def infinity (f : Format) : Nat := (1 <<< f.exponentBits - 1) * f.step

def isFinite (f : Format) (bits : Nat) : Bool := bits < f.infinity

/-- The significand of a finite pattern, with its leading one unless the
exponent field is zero. -/
def significand (f : Format) (bits : Nat) : Nat :=
  if bits < f.step then bits else bits % f.step + f.step

/-- The exponent of the significand's last bit. -/
def exponent (f : Format) (bits : Nat) : Int := f.leastExponent + (bits / f.step - 1 : Nat)

/-- `n * 2 ^ e` as a ratio. -/
def scaled (n : Nat) (e : Int) : Nat × Nat :=
  if 0 ≤ e then (n <<< e.toNat, 1) else (n, 1 <<< (-e).toNat)

/-- The value of a finite pattern as a ratio. -/
def ratio (f : Format) (bits : Nat) : Nat × Nat := scaled (f.significand bits) (f.exponent bits)

/-- The exponent at which `num / den` has a significand of full precision, or
the least exponent if that is greater. -/
def ratioExponent (f : Format) (num den : Nat) : Int :=
  let e : Int := (num.log2 : Int) - den.log2 - f.precision
  let (n, d) := scaled num (-e)
  let e := if n / (den * d) < 1 <<< f.precision then e else e + 1
  max f.leastExponent e

/-- The pattern of the value nearest to `num / den`. A ratio from half a unit
above the greatest finite value on rounds to infinity. -/
def round (f : Format) (num den : Nat) : Nat :=
  if num = 0 then 0
  else
    let e := f.ratioExponent num den
    let (n, d) := scaled num (-e)
    min f.infinity ((e - f.leastExponent).toNat * f.step + roundHalfEven n (den * d))

/-- Whether one of the `words` lowest 64-bit words of `n` has a one among its
lowest `bits` bits. -/
def anyLowBit (bits : Nat) : (words n : Nat) → Bool
  | 0, _ => false
  | words + 1, n => n % (1 <<< bits) != 0 || anyLowBit bits words (n >>> 64)

/-- The first 64 bits of `n`, or all of a shorter number. A one that is seen
behind them sets the last of them, so that a half with something behind it is no
longer a half. Behind the leading word, each word of 64 bits shows only as many
of its low bits as the leading word has, and a one above these is overlooked. -/
def leadingBits (n : Nat) : Nat :=
  let lead := n >>> (n.log2 - 63)
  if anyLowBit (n.log2 % 64 + 1) (n.log2 / 64) n then lead ||| 1 else lead

/-- The pattern for an integer, rounded from its leading bits. It is the nearest
one unless the integer lies above a half by overlooked bits alone. -/
def ofNat (f : Format) (n : Nat) : Nat := f.round (leadingBits n <<< (n.log2 - 63)) 1

/-- The rounded product; infinity times anything is infinity. -/
def mul (f : Format) (a b : Nat) : Nat :=
  if f.isFinite a && f.isFinite b then
    let (n, d) := scaled (f.significand a * f.significand b) (f.exponent a + f.exponent b)
    f.round n d
  else f.infinity

/-- Multiplies `product` by a power of `square`, from the low bit of the
exponent up, with every product rounded. -/
def powerFrom (f : Format) : (steps exponent square product : Nat) → Nat
  | 0, _, _, product => product
  | steps + 1, e, square, product =>
    let product := if e % 2 = 1 then f.mul product square else product
    if e / 2 = 0 then product else f.powerFrom steps (e / 2) (f.mul square square) product

/-- A power by repeated squaring. Each step rounds, so the result need not be
the value nearest to the exact power. -/
def power (f : Format) (base exponent : Nat) : Nat :=
  f.powerFrom (exponent.log2 + 1) exponent base (f.round 1 1)

/-- A pattern of one format in another: the nearest value, infinity for
infinity. -/
def convert (source target : Format) (bits : Nat) : Nat :=
  if source.isFinite bits then
    let (n, d) := source.ratio bits
    target.round n d
  else target.infinity

end Format

/-! ## The two formats with their sign -/

/-- A double by its bit pattern. -/
structure Double where
  bits : UInt64
  deriving DecidableEq, Repr, Inhabited

/-- A single by its bit pattern. -/
structure Single where
  bits : UInt32
  deriving DecidableEq, Repr, Inhabited

def Double.ofMagnitude (negative : Bool) (magnitude : Nat) : Double :=
  ⟨UInt64.ofNat (negative.toNat <<< 63 + magnitude)⟩

def Double.magnitude (x : Double) : Nat := x.bits.toNat % 0x8000000000000000

def Double.isNegative (x : Double) : Bool := 0x8000000000000000 ≤ x.bits.toNat

def Double.isFinite (x : Double) : Bool := Format.double.isFinite x.magnitude

def Single.ofMagnitude (negative : Bool) (magnitude : Nat) : Single :=
  ⟨UInt32.ofNat (negative.toNat <<< 31 + magnitude)⟩

def Single.magnitude (x : Single) : Nat := x.bits.toNat % 0x80000000

def Single.isNegative (x : Single) : Bool := 0x80000000 ≤ x.bits.toNat

def Single.isFinite (x : Single) : Bool := Format.single.isFinite x.magnitude

/-- The double of the same value. Something that is no number keeps its sign
and payload and becomes quiet. -/
def Single.toDouble (x : Single) : Double :=
  let m := x.magnitude
  .ofMagnitude x.isNegative <|
    if Format.single.infinity < m then
      Format.double.infinity + ((m - Format.single.infinity) % 0x400000) <<< 29 + 0x8000000000000
    else Format.single.convert .double m

/-- The nearest single, infinity if the value is too great for one. -/
def Double.toSingle (x : Double) : Single :=
  .ofMagnitude x.isNegative (Format.double.convert .single x.magnitude)

end BsonWriter
