import BsonWriter.Value.Calendar

/-!
Instants as a signed 64-bit number of milliseconds since the epoch, and what
they are in three other clocks: nanoseconds, a distance before or after the
epoch, and whole seconds with a fraction. Each clock has a range of its own.
-/

namespace BsonWriter

structure DateTime where
  millis : Int64
  deriving DecidableEq, Repr

namespace DateTime

instance : Ord DateTime := ⟨fun a b => compare a.millis.toInt b.millis.toInt⟩

def latest : DateTime := ⟨Int64.maxValue⟩

def earliest : DateTime := ⟨Int64.minValue⟩

/-- The instant of a number of milliseconds, or the nearer end of the range. -/
def clamp (millis : Int) : DateTime :=
  if millis < Int64.minValue.toInt then earliest
  else if Int64.maxValue.toInt < millis then latest
  else ⟨Int64.ofInt millis⟩

/-! ## Nanoseconds since the epoch -/

/-- Drops the fraction of a millisecond, toward the epoch. -/
def ofNanos (nanos : Int) : DateTime := clamp (nanos.tdiv 1000000)

/-- The milliseconds of the years -9999 to 9999. -/
def inCalendar (millis : Int) : Bool :=
  -377705116800000 ≤ millis && millis ≤ 253402300799999

/-- Nanoseconds, for the years -9999 to 9999 only. -/
def toNanos? (t : DateTime) : Option Int :=
  if inCalendar t.millis.toInt then some (t.millis.toInt * 1000000) else none

/-! ## A distance before or after the epoch -/

structure Elapsed where
  before : Bool
  seconds : Nat
  nanos : Nat
  deriving DecidableEq, Repr

/-- Drops the fraction of a millisecond from the distance. From before the
epoch a distance above the greatest instant gives the earliest one. -/
def ofElapsed (e : Elapsed) : DateTime :=
  let millis := e.seconds * 1000 + e.nanos / 1000000
  if Int64.maxValue.toInt < millis then if e.before then earliest else latest
  else ⟨Int64.ofInt (if e.before then -millis else millis)⟩

def toElapsed (t : DateTime) : Elapsed :=
  let distance := t.millis.toInt.natAbs
  ⟨t.millis.toInt < 0, distance / 1000, distance % 1000 * 1000000⟩

/-! ### In fixed widths -/

/-- The distance of a number from zero without a sign. Below zero it is taken in more bits
and then cut, as the least number has no absolute value in 64 bits with a sign. -/
def distance64 (m : Int64) : UInt64 :=
  if 0 ≤ m then m.toUInt64 else UInt64.ofNat m.toInt.natAbs

/-- `toElapsed` in fixed widths, without a result where the seconds do not fit the 64 bits
with a sign in which the clock counts them. -/
def toElapsed64 (t : DateTime) : Option Elapsed :=
  let distance := distance64 t.millis
  let seconds := distance / 1000
  let nanos := (distance % 1000).toUInt32 * 1000000
  if Int64.maxValue.toInt < seconds.toNat then none
  else some ⟨t.millis < 0, seconds.toNat, nanos.toNat⟩

/-- `ofElapsed` in fixed widths, without a result where the sign of the least number would
have to be changed. -/
def ofElapsed64 (e : Elapsed) : Option DateTime :=
  let millis := BitVec.ofNat 128 e.seconds * 1000 + BitVec.ofNat 128 (e.nanos / 1000000)
  let signed := Int64.ofNat millis.toNat
  if Int64.maxValue.toInt < millis.toNat then some (if e.before then earliest else latest)
  else if e.before then if signed = Int64.minValue then none else some ⟨-signed⟩
  else some ⟨signed⟩

/-! ## Whole seconds and a fraction -/

/-- Whole seconds, rounded down, and the nanoseconds above them. -/
structure UnixTime where
  seconds : Int
  nanos : Nat
  deriving DecidableEq, Repr

/-- Drops the fraction of a millisecond, downward. A leap second may carry
more than a second of nanoseconds. -/
def ofUnixTime (u : UnixTime) : DateTime :=
  ⟨Int64.ofInt (u.seconds * 1000 + (u.nanos / 1000000 : Nat))⟩

/-- The first and the last instant of the clock. -/
def unixRange : UnixTime × UnixTime :=
  (⟨-8334601228800, 0⟩, ⟨8210266876799, 999999999⟩)

/-- Seconds and nanoseconds, or the nearer end of the clock's range. -/
def toUnixTime (t : DateTime) : UnixTime :=
  let millis := t.millis.toInt
  if millis < -8334601228800000 then unixRange.1
  else if 8210266876799999 < millis then unixRange.2
  else ⟨Int.fdiv millis 1000, (Int.fmod millis 1000).toNat * 1000000⟩

/-! ## Text -/

/-- A fraction of a second without trailing zeros, of one digit at least. -/
def fractionText (millis : Nat) : String :=
  if millis % 100 = 0 then padded 1 (millis / 100)
  else if millis % 10 = 0 then padded 2 (millis / 10)
  else padded 3 millis

/-- The date and time of day in UTC; outside the years -9999 to 9999 the plain
number of milliseconds. -/
def text (t : DateTime) : String :=
  let millis := t.millis.toInt
  if inCalendar millis then
    let ofDay := (Int.fmod millis 86400000).toNat
    (Date.ofDays (Int.fdiv millis 86400000)).text ++ " " ++ (ofDay / 3600000).repr ++ ":" ++
      padded 2 (ofDay / 60000 % 60) ++ ":" ++ padded 2 (ofDay / 1000 % 60) ++ "." ++
      fractionText (ofDay % 1000) ++ " +00:00:00"
  else toString millis

def describe (t : DateTime) : String := "DateTime(" ++ t.text ++ ")"

end DateTime

end BsonWriter
