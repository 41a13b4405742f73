import BsonWriter.Proofs.Number.Conversion
import BsonWriter.Proofs.Scalar.Accepting

/-!
Decimals as doubles. What is promised is the double of a nearest single, or a nearest double
where singles overflow, or the text where doubles do (`Decimal.Promised`). The decimal is first
made a double and that is rounded to a single, so the promise is kept iff the double lies where
the decimal does: on the same side of every boundary between singles
(`Decimal.promised_iff`). Where the double is correctly rounded it can only be amiss halfway
between two singles (`Decimal.faithful_iff_of_roundsTo`); elsewhere it is so close that only
decimals next to a boundary can be amiss (`Decimal.sameSide_of_margin`).
-/

namespace BsonWriter

open Format BsonWriter.Action

namespace Decimal

variable {d : Decimal}

/-- What holds of a magnitude in front of the overflow of singles, from there to the overflow of
doubles, and beyond. -/
def ByRange (x : ℚ) (low middle high : Prop) : Prop :=
  (x < single.overflow → low) ∧ (single.overflow ≤ x → x < double.overflow → middle) ∧
    (double.overflow ≤ x → high)

/-- What is promised for `d`: the double of a nearest single, as long as rounding to singles does
not overflow; else a nearest double, as long as rounding to doubles does not; else the text. -/
def Promised (d : Decimal) (p : Primitive) : Prop :=
  ByRange |d.value|
    (∃ x : Double, p = .double x ∧ x.isFinite = true ∧
      ∃ y : Single, y.IsNearest d.value ∧ x.value = y.value)
    (∃ x : Double, p = .double x ∧ x.IsNearest d.value)
    (p = .string d.text)

/-- The magnitude of the double of `d`, where infinity is the power of two behind all finite
doubles. -/
def rounded (d : Decimal) : ℚ := double.value d.toDouble.magnitude

/-- The double of `d` is on the same side of every boundary between singles as `d`. -/
def SameSide (d : Decimal) : Prop :=
  ∀ c < single.infinity, single.midpoint c ≠ |d.value| →
    (single.Above c d.rounded ↔ single.midpoint c < |d.value|)

/-- The double of `d` is as good as `d` for what is promised. -/
def Faithful (d : Decimal) : Prop :=
  ByRange |d.value| d.SameSide (d.toDouble.IsNearest d.value) (d.toDouble.isFinite = false)

/-! ## The three ranges -/

section ByRange

variable {x : ℚ} {low middle high : Prop}

theorem byRange_of_lt (h : x < single.overflow) : ByRange x low middle high ↔ low :=
  ⟨fun hr => hr.1 h, fun hl => ⟨fun _ => hl, fun hge => absurd h (not_lt.mpr hge), fun hge =>
    absurd (h.trans overflow_lt_overflow) (not_lt.mpr hge)⟩⟩

theorem byRange_of_between (h : single.overflow ≤ x) (h' : x < double.overflow) :
    ByRange x low middle high ↔ middle :=
  ⟨fun hr => hr.2.1 h h', fun hm => ⟨fun hlt => absurd hlt (not_lt.mpr h), fun _ _ => hm,
    fun hge => absurd h' (not_lt.mpr hge)⟩⟩

theorem byRange_of_ge (h : double.overflow ≤ x) : ByRange x low middle high ↔ high :=
  ⟨fun hr => hr.2.2 h, fun hh => ⟨fun hlt =>
    absurd (hlt.trans overflow_lt_overflow) (not_lt.mpr h),
    fun _ hlt => absurd hlt (not_lt.mpr h), fun _ => hh⟩⟩

end ByRange

/-! ## What the double decides -/

theorem ofDecimal_of_single (h : d.toSingle.isFinite = true) :
    Primitive.ofDecimal false d = .double d.toSingle.toDouble := by
  rw [Primitive.ofDecimal, if_neg Bool.false_ne_true, if_pos h]

theorem ofDecimal_of_double (h : d.toSingle.isFinite = false) (h' : d.toDouble.isFinite = true) :
    Primitive.ofDecimal false d = .double d.toDouble := by
  rw [Primitive.ofDecimal, if_neg Bool.false_ne_true, if_neg (by simp [h]), if_pos h']

theorem ofDecimal_of_infinite (h : d.toSingle.isFinite = false)
    (h' : d.toDouble.isFinite = false) : Primitive.ofDecimal false d = .string d.text := by
  rw [Primitive.ofDecimal, if_neg Bool.false_ne_true, if_neg (by simp [h]), if_neg (by simp [h'])]

/-- The single of `d` is that of its double. -/
theorem toSingle_fields (d : Decimal) : d.toSingle.isNegative = d.toDouble.isNegative ∧
    single.RoundsTo d.rounded d.toSingle.magnitude :=
  Double.toSingle_roundsTo d.toDouble_fields.2.2

theorem isFinite_toSingle_iff (d : Decimal) :
    d.toSingle.isFinite = true ↔ d.rounded < single.overflow := by
  rw [Single.isFinite_iff, d.toSingle_fields.2.finite_iff]

/-- A number that overflows singles is not infinitely greater. -/
theorem isFinite_toSingle_of_infinite (h : d.toDouble.isFinite = false) :
    d.toSingle.isFinite = false := by
  rw [← Bool.not_eq_true, isFinite_toSingle_iff, rounded, not_lt]
  have hinfinite : ¬ d.toDouble.magnitude < double.infinity := by
    rw [← Double.isFinite_iff, h]
    exact Bool.false_ne_true
  rw [Nat.le_antisymm d.toDouble_fields.2.2 (Nat.le_of_not_lt hinfinite), value_infinity_double]
  exact single_overflow_lt.le.trans (pow_le_pow_right₀ one_le_two (by decide))

theorem isNearest_toSingle_iff (hv : |d.value| < single.overflow) :
    d.toSingle.IsNearest d.value ↔ d.SameSide := by
  obtain ⟨hsign, hround⟩ := d.toSingle_fields
  rw [Single.isNearest_iff (by rw [hsign]; exact d.toDouble_sign)]
  have hside : d.SameSide ↔ ∀ c < single.infinity, single.midpoint c ≠ |d.value| →
      (c < d.toSingle.magnitude ↔ single.midpoint c < |d.value|) :=
    forall₂_congr fun c hc => imp_congr_right fun _ => by rw [hround.lt_iff c hc]
  constructor
  · rintro ⟨hfinite, h⟩
    rwa [hside, ← nearest_iff hfinite hv]
  · intro h
    have hfinite : d.toSingle.magnitude < single.infinity := by
      -- the boundary to infinity is one of the boundaries
      have hpos := infinity_pos (f := single)
      have hlast := hside.mp h (single.infinity - 1) (by omega) hv.ne'
      have hnot := mt hlast.mp (not_lt.mpr hv.le)
      omega
    exact ⟨hfinite, (nearest_iff hfinite hv).mpr (hside.mp h)⟩

theorem low_iff (hv : |d.value| < single.overflow) :
    (∃ x : Double, Primitive.ofDecimal false d = .double x ∧ x.isFinite = true ∧
      ∃ y : Single, y.IsNearest d.value ∧ x.value = y.value) ↔ d.SameSide := by
  rw [← isNearest_toSingle_iff hv]
  constructor
  · rintro ⟨x, hx, hfinite, y, hnearest, hvalue⟩
    by_cases hs : d.toSingle.isFinite = true
    · rw [ofDecimal_of_single hs] at hx
      cases hx
      rw [(Single.value_toDouble hs).2] at hvalue
      exact ⟨hs, hvalue ▸ hnearest.2⟩
    · -- then the double is beyond all singles, and no single has its value
      rw [Bool.not_eq_true] at hs
      have hd : d.toDouble.isFinite = true := by
        by_contra hd
        rw [Bool.not_eq_true] at hd
        rw [ofDecimal_of_infinite hs hd] at hx
        cases hx
      rw [ofDecimal_of_double hs hd] at hx
      cases hx
      have hlt := y.value_lt_overflow hnearest.1
      rw [← hvalue, Double.value, abs_signed, ← rounded, ← isFinite_toSingle_iff, hs] at hlt
      exact absurd hlt Bool.false_ne_true
  · intro h
    exact ⟨_, ofDecimal_of_single h.1, (Single.value_toDouble h.1).1, _, h,
      (Single.value_toDouble h.1).2⟩

/-- The double halfway behind all singles is nearer to what lies beyond than any double in
front of it. -/
theorem overflow_le_of_isNearest {x : Double} {v : ℚ} (h : x.IsNearest v)
    (hv : single.overflow ≤ |v|) : single.overflow ≤ |x.value| := by
  obtain ⟨b, hlt, hb⟩ := exists_value_eq_midpoint (c := single.infinity - 1) (by decide)
  change double.value b = single.overflow at hb
  obtain ⟨hsign, hmagnitude⟩ := Double.ofMagnitude_fields (decide (v < 0))
    (Double.lt_of_le_infinity hlt.le)
  have hle := h.2 (.ofMagnitude (decide (v < 0)) b) (by rwa [Double.isFinite_iff, hmagnitude])
  have hside : if decide (v < 0) = true then v ≤ 0 else 0 ≤ v := by
    split <;> rename_i hneg <;> simp at hneg <;> linarith
  rw [Double.value, Double.value, hsign, hmagnitude, abs_sub_signed hside, hb,
    abs_of_nonneg (sub_nonneg.mpr hv), ← Double.value] at hle
  linarith [abs_sub_abs_le_abs_sub v x.value]

theorem middle_iff (hv : single.overflow ≤ |d.value|) :
    (∃ x : Double, Primitive.ofDecimal false d = .double x ∧ x.IsNearest d.value) ↔
      d.toDouble.IsNearest d.value := by
  by_cases hs : d.toSingle.isFinite = true
  · -- the double is in front of the boundary, and so is that of the single
    have hfront := d.isFinite_toSingle_iff.mp hs
    refine iff_of_false (fun ⟨x, hx, hnearest⟩ => ?_) (fun hnearest => ?_)
    · rw [ofDecimal_of_single hs] at hx
      cases hx
      have hle := overflow_le_of_isNearest hnearest hv
      rw [(Single.value_toDouble hs).2] at hle
      exact absurd hle (not_le.mpr (d.toSingle.value_lt_overflow hs))
    · have hle := overflow_le_of_isNearest hnearest hv
      rw [Double.value, abs_signed] at hle
      exact absurd hle (not_le.mpr hfront)
  · rw [Bool.not_eq_true] at hs
    by_cases hd : d.toDouble.isFinite = true
    · rw [ofDecimal_of_double hs hd]
      constructor
      · rintro ⟨x, hx, hnearest⟩
        cases hx
        exact hnearest
      · exact fun h => ⟨_, rfl, h⟩
    · rw [ofDecimal_of_infinite hs (by simpa using hd)]
      refine iff_of_false ?_ (fun h => hd h.1)
      rintro ⟨x, hx, -⟩
      cases hx

theorem high_iff (d : Decimal) :
    Primitive.ofDecimal false d = .string d.text ↔ d.toDouble.isFinite = false := by
  constructor
  · intro h
    by_contra hd
    rw [Bool.not_eq_false] at hd
    by_cases hs : d.toSingle.isFinite = true
    · rw [ofDecimal_of_single hs] at h
      cases h
    · rw [ofDecimal_of_double (by simpa using hs) hd] at h
      cases h
  · intro h
    exact ofDecimal_of_infinite (isFinite_toSingle_of_infinite h) h

/-- The promise is kept for `d` iff its double is as good as `d`. -/
theorem promised_iff (d : Decimal) : d.Promised (.ofDecimal false d) ↔ d.Faithful := by
  rw [Promised, Faithful]
  rcases lt_or_ge |d.value| single.overflow with hlow | hlow
  · rw [byRange_of_lt hlow, byRange_of_lt hlow, low_iff hlow]
  rcases lt_or_ge |d.value| double.overflow with hhigh | hhigh
  · rw [byRange_of_between hlow hhigh, byRange_of_between hlow hhigh, middle_iff hlow]
  · rw [byRange_of_ge hhigh, byRange_of_ge hhigh, high_iff]

/-! ## Where the double is good enough -/

/-- A correctly rounded double can only be amiss halfway between two singles, and is so if the
decimal lies on the side of the odd one. -/
theorem faithful_iff_of_roundsTo (h : double.RoundsTo |d.value| d.toDouble.magnitude) :
    d.Faithful ↔ (|d.value| < single.overflow → ∀ c < single.infinity,
      single.midpoint c = d.rounded → single.midpoint c ≠ |d.value| →
        (c % 2 = 1 ↔ single.midpoint c < |d.value|)) := by
  have hmiddle : |d.value| < double.overflow → d.toDouble.IsNearest d.value := fun hv =>
    (Double.isNearest_iff d.toDouble_sign).mpr ⟨h.finite_iff.mpr hv, h.nearest hv⟩
  have hhigh : double.overflow ≤ |d.value| → d.toDouble.isFinite = false := by
    intro hv
    rw [← Bool.not_eq_true, Double.isFinite_iff, h.finite_iff, not_lt]
    exact hv
  have hside : d.SameSide ↔ ∀ c < single.infinity, single.midpoint c = d.rounded →
      single.midpoint c ≠ |d.value| → (c % 2 = 1 ↔ single.midpoint c < |d.value|) := by
    refine forall₂_congr fun c hc => ?_
    rw [imp.swap]
    refine imp_congr_right fun hne => ?_
    by_cases heq : single.midpoint c = d.rounded
    · rw [← heq, above_midpoint_iff]
      exact ⟨fun h _ => h, fun h => h rfl⟩
    · -- the boundary is a double, so rounding does not pass it
      obtain ⟨b, hlt, hb⟩ := exists_value_eq_midpoint hc
      have hbound := RoundsTo.of_value hlt.le
      rw [hb] at hbound
      have hfront : |d.value| ≤ single.midpoint c → d.rounded ≤ single.midpoint c := fun hle => by
        rw [← hb]
        exact double.value_strictMono.monotone (h.mono hbound hle)
      have hbehind : single.midpoint c ≤ |d.value| → single.midpoint c ≤ d.rounded := fun hle => by
        rw [← hb]
        exact double.value_strictMono.monotone (hbound.mono h hle)
      rw [above_iff_of_ne heq]
      refine iff_of_true ⟨fun hlt => ?_, fun hlt => ?_⟩ fun h => absurd h heq
      · exact lt_of_not_ge fun hle => absurd (hfront hle) (not_le.mpr hlt)
      · exact lt_of_le_of_ne (hbehind hlt.le) heq
  exact ⟨fun hf hv => hside.mp (hf.1 hv), fun hf => ⟨fun hv => hside.mpr (hf hv),
    fun _ => hmiddle, hhigh⟩⟩

/-- What is off by more than rounding is not lost by it. -/
theorem sameSide_of_margin (hv : |d.value| < single.overflow) (hs : d.shorten.2 < 2 ^ 31)
    (hmargin : ∀ c < single.infinity, single.midpoint c ≠ |d.value| →
      |d.value| / 2 ^ 49 ≤ |single.midpoint c - (|d.value|)|) : d.SameSide := by
  intro c hc hne
  have hnear := abs_toDouble_sub_le hv hs
  rw [← rounded] at hnear
  have hleast : 1 / 2 ^ 150 ≤ single.midpoint c :=
    calc (1 / 2 ^ 150 : ℚ) = single.midpoint 0 := by
          rw [midpoint_zero, single_leastExponent]
          norm_num
      _ ≤ single.midpoint c := single.midpoint_strictMono.monotone (Nat.zero_le c)
  have hcloser : |d.rounded - (|d.value|)| < |single.midpoint c - (|d.value|)| := by
    refine hnear.trans_lt ?_
    have hpart := half_least_le
    generalize (2 : ℚ) ^ (-1075 : Int) = part at hpart ⊢
    rcases le_or_gt (1 / 2 ^ 200) |d.value| with hlarge | htiny
    · linarith [hmargin c hc hne]
    · -- next to nothing all boundaries are far away
      linarith [le_abs_self (single.midpoint c - (|d.value|))]
  have hrounded : single.midpoint c ≠ d.rounded := fun h => by
    rw [h] at hcloser
    exact lt_irrefl _ hcloser
  rw [above_iff_of_ne hrounded]
  rw [abs_lt] at hcloser
  constructor
  · intro hlt
    refine lt_of_le_of_ne (le_of_not_gt fun hgt => ?_) hne
    rw [abs_of_nonneg (by linarith)] at hcloser
    linarith
  · intro hlt
    rw [abs_of_nonpos (by linarith)] at hcloser
    linarith

theorem isFinite_eq_false_of_infinity (h : d.toDouble.magnitude = double.infinity) :
    d.toDouble.isFinite = false := by
  rw [← Bool.not_eq_true, Double.isFinite_iff, h]
  exact Nat.lt_irrefl _

/-- A scale that is too great makes a text of every decimal. -/
theorem faithful_iff_of_large_scale (hn : d.unscaled ≠ 0) (hs : 2 ^ 31 ≤ d.shorten.2) :
    d.Faithful ↔ double.overflow ≤ |d.value| := by
  have hinfinite := isFinite_eq_false_of_infinity (toDouble_of_large_scale hn hs)
  rw [Faithful]
  rcases lt_or_ge |d.value| single.overflow with hlow | hlow
  · rw [byRange_of_lt hlow, ← isNearest_toSingle_iff hlow, Single.IsNearest,
      isFinite_toSingle_of_infinite hinfinite]
    exact iff_of_false (fun h => Bool.false_ne_true h.1)
      (not_le.mpr (hlow.trans overflow_lt_overflow))
  rcases lt_or_ge |d.value| double.overflow with hhigh | hhigh
  · rw [byRange_of_between hlow hhigh, Double.IsNearest, hinfinite]
    exact iff_of_false (fun h => Bool.false_ne_true h.1) (not_le.mpr hhigh)
  · rw [byRange_of_ge hhigh]
    exact iff_of_true hinfinite hhigh

end Decimal

open Decimal

/-- Where decimals are not written as text, a decimal is written as what is promised iff its
double is as good as the decimal. If the conversion to a double rounds once it is, unless the
double falls on a boundary between singles and the decimal lay on the side of the odd one.
In front of the overflow of singles it is, unless a boundary is within `2 ^ -49` of the decimal
or the scale is too great for 32 bits; and beyond the overflow of doubles it is, but for the
first `2 ^ -40`. A decimal with too great a scale gets what is promised only if it is that
large. -/
theorem decimals_nearest_iff (d : Decimal) :
    (∀ w : Writer, w.AcceptsScalar → w.options.decimalsAsText = false →
      ∃ u, Admits .scalar (Primitive.ofDecimal false d).type w u ∧
        (write .direct (.decimal d)).run w =
          (complete ((Primitive.ofDecimal false d).payload w.escapes)).run u) ∧
    (d.Promised (.ofDecimal false d) ↔ d.Faithful) ∧
    (d.RoundedOnce → (d.Promised (.ofDecimal false d) ↔
      (|d.value| < single.overflow → ∀ c < single.infinity, single.midpoint c = d.rounded →
        single.midpoint c ≠ |d.value| → (c % 2 = 1 ↔ single.midpoint c < |d.value|)))) ∧
    (|d.value| < single.overflow → d.shorten.2 < 2 ^ 31 →
      (∀ c < single.infinity, single.midpoint c ≠ |d.value| →
        |d.value| / 2 ^ 49 ≤ |single.midpoint c - (|d.value|)|) →
      d.Promised (.ofDecimal false d)) ∧
    (double.overflow * (1 + 1 / 2 ^ 40) ≤ |d.value| → d.Promised (.ofDecimal false d)) ∧
    (d.unscaled ≠ 0 → 2 ^ 31 ≤ d.shorten.2 →
      (d.Promised (.ofDecimal false d) ↔ double.overflow ≤ |d.value|)) := by
  have hpromised := d.promised_iff
  refine ⟨fun w hw htext => ?_, hpromised,
    fun h => hpromised.trans (faithful_iff_of_roundsTo h.roundsTo),
    fun hv hs hmargin => ?_, fun hv => ?_,
    fun hn hs => hpromised.trans (faithful_iff_of_large_scale hn hs)⟩
  · obtain ⟨u, hu, hwrite⟩ := hw.run_write (Primitive.ofDecimal false d).type
    have hprimitive : (Scalar.decimal d).primitive w.options = .ofDecimal false d := by
      rw [Scalar.primitive, htext]
    have hrun := hwrite (.decimal d) (by rw [hprimitive])
    rw [hprimitive] at hrun
    exact ⟨u, hu, hrun⟩
  · rw [hpromised, Faithful, byRange_of_lt hv]
    exact sameSide_of_margin hv hs hmargin
  · rw [hpromised, Faithful, byRange_of_ge (by linarith [double_overflow_pos])]
    exact isFinite_eq_false_of_infinity (toDouble_beyond hv)

/-- Just beyond halfway from one to the next single the double is the half, so one is written
though the next single is nearer. Three halves are both, and a fraction far too small for a
double is written as text. -/
theorem decimals_nearest_iff_tie :
    Primitive.ofDecimal false ⟨10000000596046448, 16⟩ = .double ⟨0x3FF0000000000000⟩ ∧
      ¬ Promised ⟨10000000596046448, 16⟩ (.ofDecimal false ⟨10000000596046448, 16⟩) ∧
      Promised ⟨10000000596046448, 16⟩ (.double ⟨0x3FF0000020000000⟩) ∧
      Promised ⟨15, 1⟩ (.ofDecimal false ⟨15, 1⟩) ∧
      ¬ Promised ⟨1, 2147483648⟩ (.ofDecimal false ⟨1, 2147483648⟩) := by
  refine ⟨by decide +kernel, ?_, ?_, ?_, ?_⟩
  · obtain ⟨-, -, honce, -⟩ := decimals_nearest_iff ⟨10000000596046448, 16⟩
    rw [honce (roundedOnce_of_lt (by decide) (by decide) (by decide))]
    intro h
    have hside := h (by decide +kernel) 0x3F800000 (by decide +kernel) (by decide +kernel)
      (by decide +kernel)
    exact absurd (hside.mpr (by decide +kernel)) (by decide)
  · have hvalue : |Decimal.value ⟨10000000596046448, 16⟩| =
        (10000000596046448 : Nat) / (10 ^ 16 : Nat) := by decide +kernel
    have hround := round_roundsTo (f := single) 10000000596046448 (show 0 < 10 ^ 16 by decide)
    rw [← hvalue, show single.round 10000000596046448 (10 ^ 16) = 0x3F800001 by decide +kernel]
      at hround
    have hlow : |Decimal.value ⟨10000000596046448, 16⟩| < single.overflow := by decide +kernel
    have hnearest : (⟨0x3F800001⟩ : Single).IsNearest (Decimal.value ⟨10000000596046448, 16⟩) :=
      (Single.isNearest_iff (by decide +kernel)).mpr ⟨by decide +kernel, hround.nearest hlow⟩
    rw [Promised, byRange_of_lt hlow]
    exact ⟨_, rfl, by decide +kernel, _, hnearest, by decide +kernel⟩
  · obtain ⟨-, -, honce, -⟩ := decimals_nearest_iff ⟨15, 1⟩
    rw [honce (roundedOnce_of_lt (by decide) (by decide) (by decide))]
    intro _ c _ hboundary hne
    have hexact : Decimal.rounded ⟨15, 1⟩ = |Decimal.value ⟨15, 1⟩| := by decide +kernel
    exact absurd (hboundary.trans hexact) hne
  · obtain ⟨-, -, -, -, -, hlarge⟩ := decimals_nearest_iff ⟨1, 2147483648⟩
    have hshort : shorten ⟨1, 2147483648⟩ = (1, 2147483648) := by decide +kernel
    rw [hlarge (by decide) (by rw [hshort]; decide), abs_value, not_le]
    have hone : (10 : ℚ) ^ (-2147483648 : Int) ≤ 1 :=
      zpow_le_one_of_nonpos₀ (by norm_num) (by decide)
    dsimp only
    rw [Int.natAbs_one, Nat.cast_one, one_mul]
    exact hone.trans_lt ((one_le_pow₀ one_le_two).trans_lt lt_double_overflow)

end BsonWriter
