import BsonWriter.Proofs.Number.Rounding

/-!
Singles and doubles with their sign. A double takes every single as it is
(`Single.value_toDouble`) and every boundary between singles
(`Format.exists_value_eq_midpoint`), so a double rounded to a single is rounded by its value
(`Double.toSingle_roundsTo`).
-/

namespace BsonWriter

variable {b c m : Nat} {negative : Bool}

/-! ## Patterns with a sign -/

/-- The number of a sign and a pattern. -/
def Format.signed (f : Format) (negative : Bool) (bits : Nat) : ℚ :=
  if negative then -f.value bits else f.value bits

/-- The number a finite double stands for. -/
def Double.value (x : Double) : ℚ := Format.double.signed x.isNegative x.magnitude

/-- The number a finite single stands for. -/
def Single.value (x : Single) : ℚ := Format.single.signed x.isNegative x.magnitude

/-- A sign in the bit above a pattern leaves the pattern as it is. -/
theorem sign_above (negative : Bool) {width : Nat} (h : m < 2 ^ width) :
    decide (2 ^ width ≤ (negative.toNat <<< width + m) % 2 ^ (width + 1)) = negative ∧
      (negative.toNat <<< width + m) % 2 ^ (width + 1) % 2 ^ width = m := by
  have hword : (negative.toNat <<< width + m) % 2 ^ (width + 1) =
      negative.toNat * 2 ^ width + m := by
    have hsign := Nat.mul_le_mul_right (2 ^ width) negative.toNat_le
    rw [Nat.shiftLeft_eq, Nat.mod_eq_of_lt]
    omega
  rw [hword, Nat.mul_add_mod_self_right, Nat.mod_eq_of_lt h]
  cases negative <;> simp [h]

theorem Double.ofMagnitude_fields (negative : Bool) (h : m < 2 ^ 63) :
    (Double.ofMagnitude negative m).isNegative = negative ∧
      (Double.ofMagnitude negative m).magnitude = m := by
  rw [isNegative, magnitude, ofMagnitude, UInt64.toNat_ofNat']
  exact sign_above negative h

theorem Single.ofMagnitude_fields (negative : Bool) (h : m < 2 ^ 31) :
    (Single.ofMagnitude negative m).isNegative = negative ∧
      (Single.ofMagnitude negative m).magnitude = m := by
  rw [isNegative, magnitude, ofMagnitude, UInt32.toNat_ofNat']
  exact sign_above negative h

theorem Double.lt_of_le_infinity (h : m ≤ Format.double.infinity) : m < 2 ^ 63 :=
  h.trans_lt (by decide)

theorem Single.lt_of_le_infinity (h : m ≤ Format.single.infinity) : m < 2 ^ 31 :=
  h.trans_lt (by decide)

theorem Double.isFinite_iff (x : Double) :
    x.isFinite = true ↔ x.magnitude < Format.double.infinity := by
  simp [isFinite, Format.isFinite]

theorem Single.isFinite_iff (x : Single) :
    x.isFinite = true ↔ x.magnitude < Format.single.infinity := by
  simp [isFinite, Format.isFinite]

/-! ## From format to format -/

namespace Format

theorem single_step : single.step = 2 ^ 23 := rfl

theorem double_step : double.step = 2 ^ 52 := rfl

theorem single_leastExponent : single.leastExponent = -149 := rfl

theorem double_leastExponent : double.leastExponent = -1074 := rfl

theorem value_infinity_single : single.value single.infinity = 2 ^ 128 := by
  rw [value_infinity, single_step, single_leastExponent,
    show (-149 : Int) + (2 ^ single.exponentBits - 2 : Nat) = (105 : Nat) from rfl, zpow_natCast,
    Nat.cast_pow, Nat.cast_ofNat, ← pow_add]

theorem value_infinity_double : double.value double.infinity = 2 ^ 1024 := by
  rw [value_infinity, double_step, double_leastExponent,
    show (-1074 : Int) + (2 ^ double.exponentBits - 2 : Nat) = (972 : Nat) from rfl, zpow_natCast,
    Nat.cast_pow, Nat.cast_ofNat, ← pow_add]

theorem single_overflow_lt : single.overflow < 2 ^ 128 := by
  rw [← value_infinity_single]
  exact overflow_bounds.1

theorem lt_double_overflow : 2 ^ 1023 < double.overflow := by
  have h := (overflow_bounds (f := double)).2
  rw [value_infinity_double, pow_succ'] at h
  exact lt_of_mul_lt_mul_left h two_pos.le

theorem double_overflow_pos : 0 < double.overflow :=
  (pow_pos two_pos 1023).trans lt_double_overflow

theorem overflow_lt_overflow : single.overflow < double.overflow :=
  single_overflow_lt.trans ((pow_lt_pow_right₀ one_lt_two (by decide)).trans lt_double_overflow)

/-- What fits into the significand and the exponents of a double. -/
theorem exists_double_value_eq {n : Nat} {e : Int} (hn : n ≤ 2 ^ 53) (he : -1074 ≤ e) :
    ∃ b, double.value b = n * 2 ^ e := by
  obtain ⟨k, rfl⟩ := Int.le.dest he
  exact exists_value_eq (hn.trans (by decide)) k

/-- A short integer is its own nearest double. -/
theorem RoundsTo.exact {n : Nat} (h : double.RoundsTo n b) (hn : n ≤ 2 ^ 53) :
    b < double.infinity ∧ double.value b = n := by
  obtain ⟨d, hd⟩ := @exists_double_value_eq n 0 hn (by decide)
  rw [zpow_zero, mul_one] at hd
  have hlt : d < double.infinity := by
    rw [← double.value_strictMono.lt_iff_lt, hd, value_infinity_double]
    calc (n : ℚ) ≤ 2 ^ 53 := by exact_mod_cast hn
      _ < 2 ^ 1024 := pow_lt_pow_right₀ one_lt_two (by decide)
  rw [← hd] at h
  rw [h.unique (.of_value hlt.le)]
  exact ⟨hlt, hd⟩

theorem round_exact {n : Nat} (hn : n ≤ 2 ^ 53) : double.RoundsTo n (double.round n 1) ∧
    double.round n 1 < double.infinity ∧ double.value (double.round n 1) = n := by
  have h := round_roundsTo (f := double) n Nat.one_pos
  rw [Nat.cast_one, div_one] at h
  exact ⟨h, h.exact hn⟩

theorem single_double_value (b : Nat) : ∃ d, double.value d = single.value b := by
  obtain ⟨k, q, rfl, hk, hq, -⟩ := single.exists_pack b
  rw [value_pack hk hq.le]
  rw [single_step] at hq
  exact exists_double_value_eq (by omega) (by rw [single_leastExponent]; omega)

/-- A double can lie halfway between two singles. -/
theorem exists_value_eq_midpoint (hc : c < single.infinity) :
    ∃ d < double.infinity, double.value d = single.midpoint c := by
  have hlt : single.midpoint c < 2 ^ 128 :=
    calc single.midpoint c < single.value single.infinity := midpoint_lt_value_iff.mpr hc
      _ = 2 ^ 128 := value_infinity_single
  obtain ⟨k, q, rfl, hk, hq, -⟩ := single.exists_pack c
  obtain ⟨d, hd⟩ := @exists_double_value_eq (2 * q + 1) (single.leastExponent + k - 1)
    (by rw [single_step] at hq; omega) (by rw [single_leastExponent]; omega)
  have hvalue : double.value d = single.midpoint (k * single.step + q) := by
    rw [hd, midpoint_pack hk hq, zpow_sub_one₀ two_ne_zero]
    push_cast
    ring
  refine ⟨d, ?_, hvalue⟩
  rw [← double.value_strictMono.lt_iff_lt, hvalue, value_infinity_double]
  exact hlt.trans (pow_lt_pow_right₀ one_lt_two (by decide))

/-- The double of a single has its value. -/
theorem value_convert_double (hb : b < single.infinity) :
    double.value (single.convert double b) = single.value b ∧
      single.convert double b < double.infinity := by
  obtain ⟨d, hd⟩ := single_double_value b
  have hlt : d < double.infinity := by
    rw [← double.value_strictMono.lt_iff_lt, hd, value_infinity_double]
    calc single.value b < single.value single.infinity := single.value_strictMono hb
      _ = 2 ^ 128 := value_infinity_single
      _ < 2 ^ 1024 := pow_lt_pow_right₀ one_lt_two (by decide)
  have hround : double.RoundsTo _ (single.convert double b) := convert_roundsTo hb
  rw [← hd] at hround
  rw [hround.unique (.of_value hlt.le)]
  exact ⟨hd, hlt⟩

/-- A double is rounded to a single by its value, infinity included. -/
theorem convert_single_roundsTo (hb : b ≤ double.infinity) :
    single.RoundsTo (double.value b) (double.convert single b) := by
  rcases hb.lt_or_eq with hlt | rfl
  · exact convert_roundsTo hlt
  · rw [convert_of_infinity (Nat.lt_irrefl _), value_infinity_double]
    refine ⟨le_rfl, fun c hc => iff_of_true hc ?_⟩
    refine (above_value_iff.mpr hc).mono ?_
    rw [value_infinity_single]
    exact pow_le_pow_right₀ one_le_two (by decide)

theorem RoundsTo.abs_double_sub_le {x : ℚ} (h : double.RoundsTo x b) (h0 : 0 ≤ x)
    (hx : x < double.overflow) :
    |double.value b - x| ≤ x / 2 ^ 53 + 2 ^ (-1075 : Int) := by
  have hle := h.abs_sub_le h0 hx
  rwa [double_step, double_leastExponent, Nat.cast_pow, Nat.cast_ofNat, ← pow_succ'] at hle

/-- The least part of it is next to nothing. -/
theorem half_least_le : (2 : ℚ) ^ (-1075 : Int) ≤ 1 / 2 ^ 255 := by
  rw [one_div, ← zpow_natCast, ← zpow_neg]
  exact zpow_le_zpow_right₀ one_le_two (by decide)

end Format

theorem Single.magnitude_toDouble {x : Single} (h : x.isFinite = true) :
    x.toDouble.isNegative = x.isNegative ∧
      x.toDouble.magnitude = Format.single.convert .double x.magnitude := by
  rw [isFinite_iff] at h
  rw [toDouble, if_neg (by omega)]
  exact Double.ofMagnitude_fields _
    (Double.lt_of_le_infinity (Format.value_convert_double h).2.le)

/-- A single and its double are the same number. -/
theorem Single.value_toDouble {x : Single} (h : x.isFinite = true) :
    x.toDouble.isFinite = true ∧ x.toDouble.value = x.value := by
  obtain ⟨hsign, hmagnitude⟩ := magnitude_toDouble h
  obtain ⟨hvalue, hfinite⟩ := Format.value_convert_double ((isFinite_iff x).mp h)
  rw [Double.isFinite_iff, Double.value, value, hsign, hmagnitude, Format.signed, hvalue]
  exact ⟨hfinite, rfl⟩

theorem Double.toSingle_roundsTo {x : Double} (h : x.magnitude ≤ Format.double.infinity) :
    x.toSingle.isNegative = x.isNegative ∧
      Format.single.RoundsTo (Format.double.value x.magnitude) x.toSingle.magnitude := by
  have hround := Format.convert_single_roundsTo h
  obtain ⟨hsign, hmagnitude⟩ := Single.ofMagnitude_fields x.isNegative
    (Single.lt_of_le_infinity hround.le_infinity)
  rw [← toSingle] at hsign hmagnitude
  rw [hmagnitude]
  exact ⟨hsign, hround⟩

/-! ## Nearness with a sign -/

theorem Format.abs_signed (f : Format) (negative : Bool) (b : Nat) :
    |f.signed negative b| = f.value b := by
  cases negative
  · exact abs_of_nonneg (f.value_nonneg b)
  · rw [signed, if_pos rfl, abs_neg, abs_of_nonneg (f.value_nonneg b)]

/-- A number and a value of the same sign are as far apart as their magnitudes. -/
theorem Format.abs_sub_signed {f : Format} {v : ℚ} (hv : if negative then v ≤ 0 else 0 ≤ v) :
    |v - f.signed negative b| = |(|v|) - f.value b| := by
  cases negative
  · rw [signed, if_neg Bool.false_ne_true]
    rw [if_neg Bool.false_ne_true] at hv
    rw [abs_of_nonneg hv]
  · rw [signed, if_pos rfl]
    rw [if_pos rfl] at hv
    rw [abs_of_nonpos hv, ← abs_neg]
    congr 1
    ring

/-- What is nearest among the values of the same sign is nearest among all. -/
theorem Format.nearest_signed_iff {f : Format} {v : ℚ}
    (hv : if negative then v ≤ 0 else 0 ≤ v) :
    (∀ sign, ∀ c < f.infinity, |v - f.signed negative b| ≤ |v - f.signed sign c|) ↔
      ∀ c < f.infinity, |(|v|) - f.value b| ≤ |(|v|) - f.value c| := by
  constructor
  · intro h c hc
    have hle := h negative c hc
    rwa [abs_sub_signed hv, abs_sub_signed hv] at hle
  · intro h sign c hc
    calc |v - f.signed negative b| = |(|v|) - f.value b| := abs_sub_signed hv
      _ ≤ |(|v|) - f.value c| := h c hc
      _ = |(|v|) - (|f.signed sign c|)| := by rw [abs_signed]
      _ ≤ |v - f.signed sign c| := abs_abs_sub_abs_le v (f.signed sign c)

/-- The value of a single is not beyond all singles. -/
theorem Single.value_lt_overflow (x : Single) (h : x.isFinite = true) :
    |x.value| < Format.single.overflow := by
  rw [isFinite_iff] at h
  rw [value, Format.abs_signed]
  exact (Format.RoundsTo.of_value h.le).finite_iff.mp h

/-- No finite double is nearer to `v`. -/
def Double.IsNearest (x : Double) (v : ℚ) : Prop :=
  x.isFinite = true ∧ ∀ z : Double, z.isFinite = true → |v - x.value| ≤ |v - z.value|

/-- No finite single is nearer to `v`. -/
def Single.IsNearest (x : Single) (v : ℚ) : Prop :=
  x.isFinite = true ∧ ∀ z : Single, z.isFinite = true → |v - x.value| ≤ |v - z.value|

/-- Among words that stand for all finite values of a format, with both signs, nearness of one
with the sign of `v` is that of magnitudes. -/
theorem Format.isNearest_iff {f : Format} {α : Type} {isNegative : α → Bool}
    {magnitude : α → Nat}
    (honto : ∀ negative, ∀ c < f.infinity, ∃ z, isNegative z = negative ∧ magnitude z = c) {x : α}
    {v : ℚ} (hv : if isNegative x then v ≤ 0 else 0 ≤ v) :
    (f.isFinite (magnitude x) = true ∧ ∀ z, f.isFinite (magnitude z) = true →
      |v - f.signed (isNegative x) (magnitude x)| ≤
        |v - f.signed (isNegative z) (magnitude z)|) ↔
    magnitude x < f.infinity ∧ ∀ c < f.infinity,
      |(|v|) - f.value (magnitude x)| ≤ |(|v|) - f.value c| := by
  simp only [isFinite, decide_eq_true_eq, ← nearest_signed_iff hv]
  refine and_congr_right fun _ => ⟨fun h negative c hc => ?_, fun h z hz =>
    h (isNegative z) (magnitude z) hz⟩
  obtain ⟨z, rfl, rfl⟩ := honto negative c hc
  exact h z hc

theorem Double.isNearest_iff {x : Double} {v : ℚ} (hv : if x.isNegative then v ≤ 0 else 0 ≤ v) :
    x.IsNearest v ↔ x.magnitude < Format.double.infinity ∧ ∀ c < Format.double.infinity,
      |(|v|) - Format.double.value x.magnitude| ≤ |(|v|) - Format.double.value c| :=
  Format.isNearest_iff (fun negative c hc =>
    ⟨ofMagnitude negative c, ofMagnitude_fields negative (lt_of_le_infinity hc.le)⟩) hv

theorem Single.isNearest_iff {x : Single} {v : ℚ} (hv : if x.isNegative then v ≤ 0 else 0 ≤ v) :
    x.IsNearest v ↔ x.magnitude < Format.single.infinity ∧ ∀ c < Format.single.infinity,
      |(|v|) - Format.single.value x.magnitude| ≤ |(|v|) - Format.single.value c| :=
  Format.isNearest_iff (fun negative c hc =>
    ⟨ofMagnitude negative c, ofMagnitude_fields negative (lt_of_le_infinity hc.le)⟩) hv

end BsonWriter
