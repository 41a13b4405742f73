import BsonWriter.Value.DateTime

/-!
One instant read from three clocks. Two conversions drop the fraction of a millisecond
toward the epoch and the third drops it downward, so the three agree from the epoch on and
on whole milliseconds, and before the epoch on nothing else (`conversions_agree_iff`).
-/

namespace BsonWriter.DateTime

/-! ## Instants -/

/-- The nanoseconds from the epoch to an instant that is given by its distance. -/
def Elapsed.instant (e : Elapsed) : Int :=
  let distance : Int := e.seconds * 1000000000 + e.nanos
  if e.before then -distance else distance

/-- The nanoseconds from the epoch, of which a leap second counts as the next second. -/
def UnixTime.instant (u : UnixTime) : Int := u.seconds * 1000000000 + u.nanos

/-- The clock can show the reading, which may lie in a leap second. -/
def UnixTime.InRange (u : UnixTime) : Prop :=
  unixRange.1.seconds ≤ u.seconds ∧ u.seconds ≤ unixRange.2.seconds ∧ u.nanos < 2000000000

theorem ext_toInt {s t : DateTime} (h : s.millis.toInt = t.millis.toInt) : s = t := by
  obtain ⟨m⟩ := s
  obtain ⟨n⟩ := t
  exact congrArg DateTime.mk (Int64.toInt_inj.mp h)

theorem toInt_millis_ofInt {m : Int} (hl : -9223372036854775808 ≤ m)
    (hg : m ≤ 9223372036854775807) : (DateTime.mk (Int64.ofInt m)).millis.toInt = m :=
  Int64.toInt_ofInt_of_le hl (Int.lt_add_one_of_le hg)

/-- A number of milliseconds is kept, or moved to the nearer end of the range. -/
theorem toInt_millis_clamp (m : Int) :
    (clamp m).millis.toInt = max (-9223372036854775808) (min m 9223372036854775807) := by
  unfold clamp
  rw [Int64.toInt_minValue, Int64.toInt_maxValue]
  split
  · rw [earliest, Int64.toInt_minValue]
    omega
  · split
    · rw [latest, Int64.toInt_maxValue]
      omega
    · rw [toInt_millis_ofInt (by omega) (by omega)]
      omega

/-! ## Two directions -/

theorem tdiv_of_nonpos {n : Int} (h : n ≤ 0) : n.tdiv 1000000 = -(-n / 1000000) := by
  rw [← Int.tdiv_eq_ediv_of_nonneg (by omega), Int.neg_tdiv, Int.neg_neg]

/-- Downward and toward the epoch is the same from the epoch on and for whole milliseconds,
and else the one is the millisecond before the other. -/
theorem tdiv_eq_ediv_add (n : Int) : n.tdiv 1000000 =
    n / 1000000 + if 0 ≤ n ∨ 1000000 ∣ n then 0 else 1 :=
  Int.tdiv_eq_ediv

/-- What a distance is in milliseconds, before the end of the range counts. -/
theorem tdiv_instant (e : Elapsed) : e.instant.tdiv 1000000 =
    if e.before then -((e.seconds * 1000 + e.nanos / 1000000 : Nat) : Int)
    else (e.seconds * 1000 + e.nanos / 1000000 : Nat) := by
  unfold Elapsed.instant
  cases e.before with
  | true =>
    simp only [if_true]
    rw [tdiv_of_nonpos (by omega)]
    omega
  | false =>
    simp only [Bool.false_eq_true, if_false]
    rw [Int.tdiv_eq_ediv_of_nonneg (by omega)]
    omega

/-- A distance and the nanoseconds of the same instant give the same. -/
theorem ofElapsed_eq_ofNanos (e : Elapsed) : ofElapsed e = ofNanos e.instant := by
  apply ext_toInt
  rw [ofNanos, toInt_millis_clamp, tdiv_instant]
  unfold ofElapsed
  dsimp only
  rw [Int64.toInt_maxValue]
  split
  · cases e.before with
    | true =>
      simp only [if_true]
      rw [earliest, Int64.toInt_minValue]
      omega
    | false =>
      simp only [Bool.false_eq_true, if_false]
      rw [latest, Int64.toInt_maxValue]
      omega
  · cases e.before with
    | true =>
      simp only [if_true]
      rw [toInt_millis_ofInt (by omega) (by omega)]
      omega
    | false =>
      simp only [Bool.false_eq_true, if_false]
      rw [toInt_millis_ofInt (by omega) (by omega)]
      omega

/-- Whole seconds and a fraction give the milliseconds rounded down. -/
theorem toInt_millis_ofUnixTime {u : UnixTime} (h : u.InRange) :
    (ofUnixTime u).millis.toInt = u.instant / 1000000 := by
  obtain ⟨hl, hg, hn⟩ := h
  simp only [unixRange] at hl hg
  rw [ofUnixTime, toInt_millis_ofInt (by omega) (by omega), UnixTime.instant]
  omega

theorem toInt_millis_ofNanos {n : Int} (hl : -9223372036854775808000000 ≤ n)
    (hg : n ≤ 9223372036854775807999999) :
    (ofNanos n).millis.toInt = n.tdiv 1000000 := by
  have hsame := tdiv_eq_ediv_add n
  rw [ofNanos, toInt_millis_clamp]
  split at hsame <;> omega

/-- Every instant that the clock can show has a number of milliseconds in 64 bits. -/
theorem UnixTime.InRange.instant_bounds {u : UnixTime} (h : u.InRange) :
    -9223372036854775808000000 ≤ u.instant ∧ u.instant ≤ 9223372036854775807999999 := by
  obtain ⟨hl, hg, hn⟩ := h
  simp only [unixRange] at hl hg
  unfold instant
  omega

/-- For every instant that the clock of whole seconds can show, the distance from the epoch
and the nanoseconds give the same number of milliseconds. Whole seconds and a fraction give
this number too if the instant is not before the epoch or is a whole number of milliseconds;
for every other instant they give the millisecond before it. -/
theorem conversions_agree_iff {n : Int} {e : Elapsed} {u : UnixTime} (he : e.instant = n)
    (hu : u.instant = n) (hr : u.InRange) :
    ofElapsed e = ofNanos n ∧
      (ofUnixTime u = ofNanos n ↔ 0 ≤ n ∨ 1000000 ∣ n) ∧
      (¬(0 ≤ n ∨ 1000000 ∣ n) →
        (ofUnixTime u).millis.toInt + 1 = (ofNanos n).millis.toInt) := by
  obtain ⟨hl, hg⟩ := hr.instant_bounds
  rw [hu] at hl hg
  have hdown : (ofUnixTime u).millis.toInt = n / 1000000 := by
    rw [toInt_millis_ofUnixTime hr, hu]
  have htoward : (ofNanos n).millis.toInt = n.tdiv 1000000 := toInt_millis_ofNanos hl hg
  have hdiffer := tdiv_eq_ediv_add n
  refine ⟨by rw [← he, ofElapsed_eq_ofNanos], ?_⟩
  by_cases hwhole : 0 ≤ n ∨ 1000000 ∣ n
  · rw [if_pos hwhole] at hdiffer
    have hsame : ofUnixTime u = ofNanos n := ext_toInt (by omega)
    exact ⟨⟨fun _ => hwhole, fun _ => hsame⟩, fun h => absurd hwhole h⟩
  · rw [if_neg hwhole] at hdiffer
    have hnext : (ofUnixTime u).millis.toInt + 1 = (ofNanos n).millis.toInt := by omega
    refine ⟨⟨fun h => ?_, fun h => absurd h hwhole⟩, fun _ => hnext⟩
    rw [h] at hnext
    omega

/-- The last nanosecond before the epoch. -/
theorem conversions_agree_iff_last : ofElapsed ⟨true, 0, 1⟩ = ofNanos (-1) ∧
    ofUnixTime ⟨-1, 999999999⟩ ≠ ofNanos (-1) := by
  obtain ⟨hsame, hiff, -⟩ := @conversions_agree_iff (-1) ⟨true, 0, 1⟩ ⟨-1, 999999999⟩
    (by decide) (by decide) ⟨by decide, by decide, by decide⟩
  exact ⟨hsame, fun h => absurd (hiff.mp h) (by decide)⟩

end BsonWriter.DateTime
