import BsonWriter.Proofs.Instant.Agreement

/-!
A number of milliseconds loses nothing on the way through another clock and back, as long as
the clock can show the instant (`conversions_lossless`). The least number has no absolute
value in 64 bits with a sign, so the distance from the epoch is also taken through fixed
widths, and it is the same (`toElapsed64_eq`, `ofElapsed64_eq`). The range of the
clock of nanoseconds is one of whole calendar years (`Date.year_ofDays_mem_iff`).
-/

namespace BsonWriter

/-! ## Years -/

/-- How many years have begun since the first of March that a cycle of 400 years starts
with. -/
def Date.begun (dayOfCycle : Nat) : Nat :=
  let yearOfCycle :=
    (dayOfCycle - dayOfCycle / 1460 + dayOfCycle / 36524 - dayOfCycle / 146096) / 365
  let dayOfYear := dayOfCycle - (365 * yearOfCycle + yearOfCycle / 4 - yearOfCycle / 100)
  let marchMonth := (5 * dayOfYear + 2) / 153
  let month := if marchMonth < 10 then marchMonth + 3 else marchMonth - 9
  yearOfCycle + if month ≤ 2 then 1 else 0

theorem Date.year_ofDays (days : Int) : (ofDays days).year =
    (days + 719468) / 146097 * 400 + begun ((days + 719468) % 146097).toNat := by
  unfold ofDays begun
  dsimp only
  rw [Int.fdiv_eq_ediv_of_nonneg _ (by decide), Int.emod_def, Int.mul_comm 146097,
    Int.natCast_add, Int.add_assoc]
  split <;> split <;> rfl

/-- January and February come last in a year that starts in March. -/
theorem Date.month_le_two_iff {dayOfYear : Nat} (h : dayOfYear ≤ 366) :
    (if (5 * dayOfYear + 2) / 153 < 10 then (5 * dayOfYear + 2) / 153 + 3
      else (5 * dayOfYear + 2) / 153 - 9) ≤ 2 ↔ 306 ≤ dayOfYear := by
  split <;> omega

theorem Date.begun_eq_zero_iff {n : Nat} : begun n = 0 ↔ n < 306 := by
  unfold begun
  dsimp only
  generalize hy : (n - n / 1460 + n / 36524 - n / 146096) / 365 = y
  by_cases hfirst : y = 0
  · have hday : n ≤ 366 := by omega
    subst hfirst
    simp only [Nat.mul_zero, Nat.zero_div, Nat.add_zero, Nat.sub_zero, Nat.zero_add,
      month_le_two_iff hday]
    split <;> omega
  · omega

/-- The last year of a cycle begins with January, 60 days before the cycle ends. -/
theorem Date.begun_le_iff {n : Nat} (hn : n < 146097) : begun n ≤ 399 ↔ n < 146037 := by
  unfold begun
  dsimp only
  generalize hy : (n - n / 1460 + n / 36524 - n / 146096) / 365 = y
  -- 399 years have 145731 days, and only in the year after them can the 400th begin
  by_cases hlast : n < 145731
  · have hy : y ≤ 398 := by omega
    split <;> split <;> omega
  · have hy : y = 399 := by omega
    have hday : n - (365 * 399 + 399 / 4 - 399 / 100) = n - 145731 := rfl
    rw [hy, hday]
    simp only [month_le_two_iff (show n - 145731 ≤ 366 by omega)]
    split <;> omega

theorem Date.begun_le {n : Nat} (hn : n < 146097) : begun n ≤ 400 := by
  unfold begun
  dsimp only
  have hy : (n - n / 1460 + n / 36524 - n / 146096) / 365 ≤ 399 := by omega
  split <;> split <;> omega

/-- The days of the years -9999 to 9999. -/
theorem Date.year_ofDays_mem_iff (days : Int) :
    (-9999 ≤ (ofDays days).year ∧ (ofDays days).year ≤ 9999) ↔
      -4371587 ≤ days ∧ days ≤ 2932896 := by
  have hlt : ((days + 719468) % 146097).toNat < 146097 := by omega
  have hfirst := begun_eq_zero_iff (n := ((days + 719468) % 146097).toNat)
  have hlast := begun_le_iff hlt
  have hall := begun_le hlt
  rw [year_ofDays]
  omega

namespace DateTime

/-- The nanoseconds from the epoch. -/
def instant (t : DateTime) : Int := t.millis.toInt * 1000000

/-- The year in which an instant lies. -/
def year (t : DateTime) : Int := (Date.ofDays (Int.fdiv t.millis.toInt 86400000)).year

theorem inCalendar_iff (t : DateTime) :
    inCalendar t.millis.toInt = true ↔ -9999 ≤ t.year ∧ t.year ≤ 9999 := by
  rw [year, Date.year_ofDays_mem_iff, Int.fdiv_eq_ediv_of_nonneg _ (by decide)]
  simp only [inCalendar, Bool.and_eq_true, decide_eq_true_eq]
  omega

theorem toNanos?_eq_some_iff {t : DateTime} {n : Int} :
    t.toNanos? = some n ↔ (-9999 ≤ t.year ∧ t.year ≤ 9999) ∧ t.instant = n := by
  rw [toNanos?, ← inCalendar_iff]
  split
  · rename_i h
    simp only [h, instant, Option.some.injEq, true_and]
  · rename_i h
    simp only [h, Bool.false_eq_true, false_and, reduceCtorEq]

theorem millis_bounds (t : DateTime) :
    -9223372036854775808 ≤ t.millis.toInt ∧ t.millis.toInt ≤ 9223372036854775807 :=
  ⟨Int64.le_toInt t.millis, Int64.toInt_le t.millis⟩

/-- Whole milliseconds in nanoseconds come back whole. -/
theorem ofNanos_instant (t : DateTime) : ofNanos t.instant = t := by
  obtain ⟨hl, hg⟩ := t.millis_bounds
  apply ext_toInt
  rw [ofNanos, toInt_millis_clamp, instant, Int.mul_tdiv_cancel _ (by decide)]
  omega

/-! ## Whole seconds -/

/-- An instant that the clock of whole seconds can show is kept, and any other one is moved
to the nearer end of the clock. -/
theorem toInt_millis_ofUnixTime_toUnixTime (t : DateTime) :
    (ofUnixTime t.toUnixTime).millis.toInt =
      max (-8334601228800000) (min t.millis.toInt 8210266876799999) := by
  unfold toUnixTime
  dsimp only
  split
  · rw [ofUnixTime, toInt_millis_ofInt (by decide) (by decide)]
    simp only [unixRange]
    omega
  · split
    · rw [ofUnixTime, toInt_millis_ofInt (by decide) (by decide)]
      simp only [unixRange]
      omega
    · rw [ofUnixTime, Int.fdiv_eq_ediv_of_nonneg _ (by decide),
        Int.fmod_eq_emod_of_nonneg _ (by decide)]
      dsimp only
      rw [toInt_millis_ofInt (by omega) (by omega)]
      omega

theorem ofUnixTime_toUnixTime_iff (t : DateTime) : ofUnixTime t.toUnixTime = t ↔
    unixRange.1.instant ≤ t.instant ∧ t.instant ≤ unixRange.2.instant := by
  have hkept := toInt_millis_ofUnixTime_toUnixTime t
  simp only [unixRange, UnixTime.instant, instant]
  constructor
  · intro h
    rw [h] at hkept
    omega
  · intro h
    exact ext_toInt (by omega)

/-! ## Distances in 64 bits -/

/-- Whole seconds and nanoseconds below one second, the seconds without a sign in 64 bits. -/
def Elapsed.Fits (e : Elapsed) : Prop :=
  e.seconds < 18446744073709551616 ∧ e.nanos < 1000000000

/-- The cut loses nothing: the distance of the least number is the first that needs all 64
bits. -/
theorem toNat_distance64 (m : Int64) : (distance64 m).toNat = m.toInt.natAbs := by
  have hl := Int64.le_toInt m
  have hg := Int64.toInt_lt m
  unfold distance64
  split
  · rename_i h
    have hsign : 0 ≤ m.toInt := Int64.le_iff_toInt_le.mp h
    rw [Int64.toNat_toUInt64_of_le h, ← Int64.toNat_toInt]
    omega
  · rw [UInt64.toNat_ofNat', Nat.mod_eq_of_lt (by omega)]

theorem toElapsed64_eq (t : DateTime) : toElapsed64 t = some t.toElapsed := by
  obtain ⟨hl, hg⟩ := t.millis_bounds
  have hdistance := toNat_distance64 t.millis
  have hseconds : (distance64 t.millis / 1000).toNat = t.millis.toInt.natAbs / 1000 := by
    rw [UInt64.toNat_div, hdistance]
    rfl
  have hnanos : ((distance64 t.millis % 1000).toUInt32 * 1000000).toNat =
      t.millis.toInt.natAbs % 1000 * 1000000 := by
    rw [UInt32.toNat_mul, UInt64.toNat_toUInt32, UInt64.toNat_mod, hdistance]
    change t.millis.toInt.natAbs % 1000 % 2 ^ 32 * 1000000 % 2 ^ 32 = _
    omega
  unfold toElapsed64 toElapsed
  dsimp only
  rw [hseconds, hnanos, if_neg (by rw [Int64.toInt_maxValue]; omega)]
  simp only [Int64.lt_iff_toInt_lt]
  rfl

theorem ofElapsed64_eq {e : Elapsed} (h : e.Fits) : ofElapsed64 e = some (ofElapsed e) := by
  obtain ⟨hs, hn⟩ := h
  have hmillis : (BitVec.ofNat 128 e.seconds * 1000 + BitVec.ofNat 128 (e.nanos / 1000000)).toNat =
      e.seconds * 1000 + e.nanos / 1000000 := by
    rw [BitVec.toNat_add, BitVec.toNat_mul, BitVec.toNat_ofNat, BitVec.toNat_ofNat]
    change (e.seconds % 2 ^ 128 * 1000 % 2 ^ 128 + _) % _ = _
    omega
  unfold ofElapsed64 ofElapsed
  dsimp only
  rw [hmillis]
  split
  · rfl
  · rename_i hle
    rw [Int64.toInt_maxValue] at hle
    have hleast : Int64.ofNat (e.seconds * 1000 + e.nanos / 1000000) ≠ Int64.minValue := by
      rw [← Int64.ofInt_eq_ofNat, Ne, ← Int64.toInt_inj, Int64.toInt_minValue,
        Int64.toInt_ofInt_of_le (by omega) (by omega)]
      omega
    cases e.before with
    | true =>
      simp only [if_true]
      rw [if_neg hleast, Int64.ofInt_neg, Int64.ofInt_eq_ofNat]
    | false =>
      simp only [Bool.false_eq_true, if_false]
      rw [Int64.ofInt_eq_ofNat]

theorem instant_toElapsed (t : DateTime) : t.toElapsed.instant = t.instant := by
  unfold toElapsed Elapsed.instant instant
  dsimp only
  split <;> rename_i h <;> simp only [decide_eq_true_eq] at h <;> omega

theorem fits_toElapsed (t : DateTime) : t.toElapsed.Fits := by
  obtain ⟨hl, hg⟩ := t.millis_bounds
  unfold toElapsed Elapsed.Fits
  dsimp only
  omega

theorem ofElapsed_toElapsed (t : DateTime) : ofElapsed t.toElapsed = t := by
  rw [ofElapsed_eq_ofNanos, instant_toElapsed, ofNanos_instant]

/-! ## All instants -/

theorem toInt_millis_ofElapsed (e : Elapsed) : (ofElapsed e).millis.toInt =
    max (-9223372036854775808) (min (e.instant.tdiv 1000000) 9223372036854775807) := by
  rw [ofElapsed_eq_ofNanos, ofNanos, toInt_millis_clamp]

/-- Later instants do not have fewer milliseconds. -/
theorem tdiv_le_tdiv {m n : Int} (h : m ≤ n) : m.tdiv 1000000 ≤ n.tdiv 1000000 := by
  rw [tdiv_eq_ediv_add, tdiv_eq_ediv_add]
  split <;> split <;> omega

/-- What the division drops is less than one millisecond. -/
theorem tdiv_error (n : Int) : (n.tdiv 1000000 * 1000000 - n).natAbs < 1000000 := by
  rw [tdiv_eq_ediv_add]
  split <;> omega

theorem toInt_millis_ofElapsed_mono {e e' : Elapsed} (h : e.instant ≤ e'.instant) :
    (ofElapsed e).millis.toInt ≤ (ofElapsed e').millis.toInt := by
  have hdiv := tdiv_le_tdiv h
  rw [toInt_millis_ofElapsed, toInt_millis_ofElapsed]
  omega

theorem instant_earliest : earliest.instant = -9223372036854775808000000 := by
  rw [instant, earliest, Int64.toInt_minValue]
  rfl

theorem instant_latest : latest.instant = 9223372036854775807000000 := by
  rw [instant, latest, Int64.toInt_maxValue]
  rfl

theorem ofElapsed_error {e : Elapsed} (hl : earliest.instant - 1000000 < e.instant)
    (hg : e.instant < latest.instant + 1000000) :
    ((ofElapsed e).instant - e.instant).natAbs < 1000000 := by
  rw [instant_earliest] at hl
  rw [instant_latest] at hg
  have herror := tdiv_error e.instant
  have hsame := tdiv_eq_ediv_add e.instant
  have hkept : (ofElapsed e).millis.toInt = e.instant.tdiv 1000000 := by
    rw [toInt_millis_ofElapsed]
    split at hsame <;> omega
  rw [instant, hkept]
  exact herror

theorem ofElapsed_of_latest_le {e : Elapsed} (h : latest.instant ≤ e.instant) :
    ofElapsed e = latest := by
  apply ext_toInt
  have hdiv := tdiv_le_tdiv h
  rw [instant_latest, show (9223372036854775807000000 : Int).tdiv 1000000 = 9223372036854775807
    from rfl] at hdiv
  rw [toInt_millis_ofElapsed, latest, Int64.toInt_maxValue]
  omega

theorem ofElapsed_of_le_earliest {e : Elapsed} (h : e.instant ≤ earliest.instant) :
    ofElapsed e = earliest := by
  apply ext_toInt
  have hdiv := tdiv_le_tdiv h
  rw [instant_earliest, show (-9223372036854775808000000 : Int).tdiv 1000000 =
    -9223372036854775808 from rfl] at hdiv
  rw [toInt_millis_ofElapsed, earliest, Int64.toInt_minValue]
  omega

/-- Every number of milliseconds has a distance from the epoch that the fixed widths hold at
every step, and it comes back from there. It has nanoseconds exactly in the years -9999 to
9999, and comes back from them, and it comes back from whole seconds exactly in the range of
their clock. The milliseconds of a distance follow the order of the instants, are less than
one millisecond away from an instant in their range, and are the nearer end of the range for
any other one. -/
theorem conversions_lossless :
    (∀ t : DateTime, (toElapsed64 t = some t.toElapsed ∧ t.toElapsed.instant = t.instant ∧
        ofElapsed64 t.toElapsed = some (ofElapsed t.toElapsed) ∧ ofElapsed t.toElapsed = t) ∧
      ((∃ n, t.toNanos? = some n) ↔ -9999 ≤ t.year ∧ t.year ≤ 9999) ∧
      (∀ n, t.toNanos? = some n → n = t.instant ∧ ofNanos n = t) ∧
      (ofUnixTime t.toUnixTime = t ↔
        unixRange.1.instant ≤ t.instant ∧ t.instant ≤ unixRange.2.instant)) ∧
    (∀ e : Elapsed, (e.Fits → ofElapsed64 e = some (ofElapsed e)) ∧
      (∀ e' : Elapsed, e.instant ≤ e'.instant →
        (ofElapsed e).millis.toInt ≤ (ofElapsed e').millis.toInt) ∧
      (earliest.instant - 1000000 < e.instant → e.instant < latest.instant + 1000000 →
        ((ofElapsed e).instant - e.instant).natAbs < 1000000) ∧
      (latest.instant ≤ e.instant → ofElapsed e = latest) ∧
      (e.instant ≤ earliest.instant → ofElapsed e = earliest)) := by
  refine ⟨fun t => ⟨⟨toElapsed64_eq t, instant_toElapsed t, ofElapsed64_eq (fits_toElapsed t),
    ofElapsed_toElapsed t⟩, ?_, ?_, ofUnixTime_toUnixTime_iff t⟩, fun e => ⟨ofElapsed64_eq,
      fun e' => toInt_millis_ofElapsed_mono, ofElapsed_error, ofElapsed_of_latest_le,
      ofElapsed_of_le_earliest⟩⟩
  · simp only [toNanos?_eq_some_iff, exists_and_left, exists_eq', and_true]
  · intro n h
    obtain ⟨-, rfl⟩ := toNanos?_eq_some_iff.mp h
    exact ⟨rfl, ofNanos_instant t⟩

/-- The least number, whose distance has no place in 64 bits with a sign, and two instants
on the two sides of the latest one. -/
theorem conversions_lossless_ends : ofElapsed64 earliest.toElapsed = some earliest ∧
    ofElapsed ⟨false, 9223372036854775, 808000000⟩ = latest ∧
    ofNanos 253402300799999000000 = ⟨253402300799999⟩ := by
  obtain ⟨hkept, hdistance⟩ := conversions_lossless
  obtain ⟨⟨-, -, hback, hleast⟩, -⟩ := hkept earliest
  obtain ⟨-, -, hnanos, -⟩ := hkept ⟨253402300799999⟩
  obtain ⟨-, -, -, hlate, -⟩ := hdistance ⟨false, 9223372036854775, 808000000⟩
  exact ⟨by rw [hback, hleast], hlate (by decide), (hnanos _ (by decide)).2⟩

end DateTime

end BsonWriter
