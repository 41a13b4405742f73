/-!
The proleptic Gregorian calendar. Years are counted astronomically, with a year
zero, and a day is given by its distance in days from 1970-01-01.
-/

namespace BsonWriter

structure Date where
  year : Int
  month : Nat
  day : Nat
  deriving DecidableEq, Repr

/-- The date of a day. Counting in years that start in March, and in cycles of
400 years, puts the leap day last; a month then starts after `(153 * m + 2) / 5`
days, and a cycle has 146097 days from 0000-03-01 on. -/
def Date.ofDays (days : Int) : Date :=
  let shifted := days + 719468
  let cycle := Int.fdiv shifted 146097
  let dayOfCycle := (shifted - cycle * 146097).toNat
  let yearOfCycle :=
    (dayOfCycle - dayOfCycle / 1460 + dayOfCycle / 36524 - dayOfCycle / 146096) / 365
  let dayOfYear := dayOfCycle - (365 * yearOfCycle + yearOfCycle / 4 - yearOfCycle / 100)
  let marchMonth := (5 * dayOfYear + 2) / 153
  let month := if marchMonth < 10 then marchMonth + 3 else marchMonth - 9
  let year := cycle * 400 + yearOfCycle + (if month ≤ 2 then 1 else 0)
  ⟨year, month, dayOfYear - (153 * marchMonth + 2) / 5 + 1⟩

/-- A number in at least `width` digits. -/
def padded (width n : Nat) : String :=
  String.ofList (List.replicate (width - n.repr.length) '0') ++ n.repr

/-- Year, month and day; the year has at least four digits after its sign. -/
def Date.text (d : Date) : String :=
  (if d.year < 0 then "-" else "") ++ padded 4 d.year.natAbs ++ "-" ++ padded 2 d.month ++ "-" ++
    padded 2 d.day

end BsonWriter
