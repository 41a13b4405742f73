import BsonWriter.Proofs.Number.Digits
import BsonWriter.Proofs.Number.LeadingBits
import BsonWriter.Proofs.Number.Powers

/-!
How far the double of a decimal is from the decimal. It is the nearest one where only one
step of the conversion rounds (`Decimal.RoundedOnce.roundsTo`). Below the range in which
singles overflow it is close to it (`Decimal.abs_toDouble_sub_le`), unless the scale is so
great that the conversion gives up and says infinity (`Decimal.toDouble_of_large_scale`), and
what is clearly beyond doubles becomes infinity too (`Decimal.toDouble_beyond`).
-/

namespace BsonWriter

open Format

namespace Decimal

variable {d : Decimal} {n : Nat} {scale : Int}

/-- The number a decimal stands for. -/
def value (d : Decimal) : ℚ := d.unscaled * 10 ^ (-d.scale)

theorem abs_value (d : Decimal) : |d.value| = d.unscaled.natAbs * 10 ^ (-d.scale) := by
  rw [value, abs_mul, abs_of_pos (show (0 : ℚ) < 10 ^ (-d.scale) by positivity),
    Nat.cast_natAbs, Int.cast_abs]

/-! ## Magnitudes -/

theorem power_ten_exact : ∀ k < 23,
    double.power (double.round 10 1) k < double.infinity ∧
      double.value (double.power (double.round 10 1) k) = 10 ^ k := by
  decide +kernel

theorem power_ten_near : ∀ k < 39,
    double.power (double.round 10 1) k < double.infinity ∧
      |double.value (double.power (double.round 10 1) k) - 10 ^ k| ≤ 10 ^ k / 2 ^ 53 := by
  decide +kernel

theorem ofNat_double_roundsTo (h : Visible n) : double.RoundsTo n (double.ofNat n) :=
  ofNat_roundsTo (by decide) h

theorem ofNat_exact (h : n ≤ 2 ^ 53) :
    double.ofNat n < double.infinity ∧ double.value (double.ofNat n) = n :=
  (ofNat_double_roundsTo (visible_of_lt (h.trans_lt (by decide)))).exact h

/-- What is too small for the least double is not even near half of it. -/
theorem roundsTo_zero {x : ℚ} (hx : x < 10 ^ (-325 : Int)) : double.RoundsTo x 0 := by
  refine ⟨Nat.zero_le _, fun c _ => iff_of_false (Nat.not_lt_zero c) fun h => ?_⟩
  have hpow : (2 : ℚ) ^ 1075 < 10 ^ 325 := by
    rw [show 1075 = 43 * 25 from rfl, show 325 = 13 * 25 from rfl, pow_mul, pow_mul]
    gcongr
    norm_num
  have hleast : (10 : ℚ) ^ (-325 : Int) < double.midpoint 0 := by
    rw [midpoint_zero, show double.leastExponent - 1 = -1075 from rfl, zpow_neg, zpow_neg]
    gcongr
    exact_mod_cast hpow
  have hc := double.midpoint_strictMono.monotone (Nat.zero_le c)
  exact absurd h.le (not_le.mpr (hx.trans (hleast.trans_le hc)))

/-- With digits after the point the quotient is rounded, once. -/
theorem magnitude_of_pos (hpos : 0 < scale) (hlt : scale < 2 ^ 31) :
    double.RoundsTo (n * 10 ^ (-scale)) (magnitude n scale) := by
  rw [magnitude, if_neg (by omega), if_neg (by omega)]
  obtain ⟨k, rfl⟩ := Int.eq_ofNat_of_zero_le hpos.le
  rw [Int.toNat_natCast, zpow_neg, zpow_natCast, ← div_eq_mul_inv]
  split
  · rename_i hlong
    have hn : n < 10 ^ n.repr.length :=
      (Nat.length_repr_le_iff Nat.length_repr_pos).mp le_rfl
    have hn' : (n : ℚ) < 10 ^ n.repr.length := by exact_mod_cast hn
    apply roundsTo_zero
    rw [div_lt_iff₀ (by positivity), ← zpow_natCast, ← zpow_add₀ (by norm_num)]
    calc (n : ℚ) < 10 ^ n.repr.length := hn'
      _ = 10 ^ (n.repr.length : Int) := (zpow_natCast _ _).symm
      _ ≤ 10 ^ (-325 + (k : Int)) := zpow_le_zpow_right₀ (by norm_num) (by omega)
  · have hround := round_roundsTo (f := double) n (show 0 < 10 ^ k from Nat.pow_pos (by decide))
    rwa [Nat.cast_pow] at hround

theorem magnitude_of_nonpos {k : Nat} (hk : k < 2 ^ 31) :
    magnitude n (-k) = double.mul (double.ofNat n) (double.power (double.round 10 1) k) := by
  rw [magnitude, if_neg (by omega), if_pos (by omega), neg_neg, Int.toNat_natCast]

theorem magnitude_le_infinity (n : Nat) (scale : Int) :
    magnitude n scale ≤ double.infinity := by
  rcases le_or_gt scale 0 with hle | hpos
  · rw [magnitude]
    split
    · exact le_rfl
    · by_cases h : double.ofNat n < double.infinity ∧
          double.power (double.round 10 1) (-scale).toNat < double.infinity
      · exact (mul_roundsTo h.1 h.2).le_infinity
      · exact (mul_eq_infinity h).le
  · rcases lt_or_ge scale (2 ^ 31) with hlt | hge
    · exact (magnitude_of_pos hpos hlt).le_infinity
    · rw [magnitude, if_pos (by omega)]

/-! ## The double -/

/-- The sign is that of the decimal, and nothing is greater than infinity. -/
theorem toDouble_fields (d : Decimal) : d.toDouble.isNegative = decide (d.unscaled < 0) ∧
    d.toDouble.magnitude = (if d.unscaled = 0 then 0
      else if d.scale = 0 then double.ofNat d.unscaled.natAbs
      else magnitude d.shorten.1 d.shorten.2) ∧
    d.toDouble.magnitude ≤ double.infinity := by
  have hfields : ∀ {negative m}, m ≤ double.infinity →
      (Double.ofMagnitude negative m).isNegative = negative ∧
        (Double.ofMagnitude negative m).magnitude = m ∧
        (Double.ofMagnitude negative m).magnitude ≤ double.infinity := by
    intro negative m hm
    obtain ⟨hsign, hmagnitude⟩ := Double.ofMagnitude_fields negative (Double.lt_of_le_infinity hm)
    exact ⟨hsign, hmagnitude, hmagnitude.trans_le hm⟩
  rw [toDouble]
  split
  · rename_i h
    rw [h]
    exact hfields (Nat.zero_le _)
  · split
    · exact hfields (ofNat_roundsTo_leadingBits _).le_infinity
    · exact hfields (magnitude_le_infinity ..)

theorem toDouble_sign (d : Decimal) :
    if d.toDouble.isNegative then d.value ≤ 0 else 0 ≤ d.value := by
  have hpow : (0 : ℚ) < 10 ^ (-d.scale) := by positivity
  rw [d.toDouble_fields.1, value]
  by_cases h : d.unscaled < 0
  · rw [if_pos (by simpa using h)]
    exact mul_nonpos_of_nonpos_of_nonneg (by exact_mod_cast h.le) hpow.le
  · rw [if_neg (by simpa using h)]
    exact mul_nonneg (by exact_mod_cast not_lt.mp h) hpow.le

theorem abs_value_pos (h : d.unscaled ≠ 0) : 0 < |d.value| := by
  rw [abs_value]
  have : 0 < (d.unscaled.natAbs : ℚ) := by exact_mod_cast Int.natAbs_pos.mpr h
  positivity

/-- A scale beyond 32 bits makes infinity, of whatever size the decimal is. -/
theorem toDouble_of_large_scale (hn : d.unscaled ≠ 0) (hs : 2 ^ 31 ≤ d.shorten.2) :
    d.toDouble.magnitude = double.infinity := by
  have hscale : d.shorten.2 ≤ d.scale := by
    rw [shorten]
    dsimp only
    omega
  rw [d.toDouble_fields.2.1, if_neg hn, if_neg (by omega), magnitude, if_pos (by omega)]

/-! ## Dropped digits -/

/-- What is left of the magnitude once digits are dropped. -/
def kept (d : Decimal) : ℚ := d.shorten.1 * 10 ^ (-d.shorten.2)

/-- It is the magnitude or a little less. -/
theorem shorten_near (hn : d.unscaled ≠ 0) :
    1 ≤ d.shorten.1 ∧ d.kept ≤ |d.value| ∧ |d.value| ≤ d.kept * (1 + 1 / 10 ^ 24) := by
  rw [abs_value, kept]
  rcases shorten_cases hn with h | ⟨cut, h, hlong⟩ <;> rw [h] <;> dsimp only
  · have hpos : (0 : ℚ) ≤ d.unscaled.natAbs * 10 ^ (-d.scale) := by positivity
    exact ⟨by omega, le_rfl, le_mul_of_one_le_right hpos (by norm_num)⟩
  · have hcut : 0 < 10 ^ cut := Nat.pow_pos (by decide)
    have hlo := Nat.div_mul_le_self d.unscaled.natAbs (10 ^ cut)
    have hhi := Nat.lt_div_mul_add hcut (a := d.unscaled.natAbs)
    generalize d.unscaled.natAbs / 10 ^ cut = m at *
    generalize d.unscaled.natAbs = n at *
    have hlo' : (m * 10 ^ cut : ℚ) ≤ n := by exact_mod_cast hlo
    have hhi' : (n : ℚ) < m * 10 ^ cut + 10 ^ cut := by exact_mod_cast hhi
    have hlong' : (10 ^ 24 : ℚ) ≤ m := by exact_mod_cast hlong
    have hscale : (m : ℚ) * 10 ^ (-(d.scale - cut)) = m * 10 ^ cut * 10 ^ (-d.scale) := by
      rw [neg_sub, sub_eq_add_neg, zpow_add₀ (by norm_num), zpow_natCast, mul_assoc]
    rw [hscale]
    refine ⟨by omega, by gcongr, ?_⟩
    calc (n : ℚ) * 10 ^ (-d.scale)
        ≤ (m * 10 ^ cut + 10 ^ cut) * 10 ^ (-d.scale) := by gcongr
      _ ≤ (m * 10 ^ cut * (1 + 1 / 10 ^ 24)) * 10 ^ (-d.scale) := by
          gcongr
          rw [mul_add, mul_one, mul_one_div]
          gcongr
          rw [le_div_iff₀ (by positivity), mul_comm]
          gcongr
      _ = m * 10 ^ cut * 10 ^ (-d.scale) * (1 + 1 / 10 ^ 24) := by ring

/-! ## Rounding once -/

/-- The decimals whose conversion rounds once: zero; integers without overlooked bits; what
has digits after the point, when no boundary between doubles lies among the dropped digits; and
a short integer with a short power of ten. -/
def RoundedOnce (d : Decimal) : Prop :=
  d.unscaled = 0 ∨ d.scale = 0 ∧ Visible d.unscaled.natAbs ∨
    d.scale ≠ 0 ∧
      (0 < d.shorten.2 ∧ d.shorten.2 < 2 ^ 31 ∧
          (∀ c < double.infinity, d.kept ≤ double.midpoint c → double.midpoint c ≤ |d.value| →
            d.kept = |d.value|) ∨
        -22 ≤ d.shorten.2 ∧ d.shorten.2 ≤ 0 ∧ d.shorten.1 ≤ 2 ^ 53 ∧ d.kept = |d.value|)

theorem RoundedOnce.roundsTo (h : d.RoundedOnce) :
    double.RoundsTo |d.value| d.toDouble.magnitude := by
  rw [d.toDouble_fields.2.1]
  by_cases hzero : d.unscaled = 0
  · rw [if_pos hzero, abs_value, hzero, Int.natAbs_zero, Nat.cast_zero, zero_mul,
      ← double.value_zero]
    exact .of_value (Nat.zero_le _)
  rw [if_neg hzero]
  rcases h.resolve_left hzero with ⟨hinteger, hvisible⟩ |
    ⟨hscale, ⟨hpos, hlt, hdropped⟩ | ⟨hge, hle, hshort, hvalue⟩⟩
  · rw [if_pos hinteger, abs_value, hinteger, neg_zero, zpow_zero, mul_one]
    exact ofNat_double_roundsTo hvisible
  · rw [if_neg hscale]
    have hround : double.RoundsTo d.kept _ := magnitude_of_pos (n := d.shorten.1) hpos hlt
    refine ⟨hround.le_infinity, fun c hc => (hround.lt_iff c hc).trans
      ⟨fun h => h.mono (shorten_near hzero).2.1, fun h => ?_⟩⟩
    rcases lt_or_ge (double.midpoint c) d.kept with hbelow | habove
    · exact .inl hbelow
    · rwa [hdropped c hc habove h.le]
  · obtain ⟨k, hk⟩ := Int.exists_eq_neg_ofNat hle
    obtain ⟨hfinite, hexact⟩ := ofNat_exact hshort
    obtain ⟨hfinite', hexact'⟩ := power_ten_exact k (by omega)
    rw [if_neg hscale, ← hvalue, kept, hk, magnitude_of_nonpos (by omega), neg_neg, zpow_natCast,
      ← hexact, ← hexact']
    exact mul_roundsTo hfinite hfinite'

/-- A magnitude of up to 128 bits is rounded once if there is a point, and not too far in
front. -/
theorem roundedOnce_of_lt (hn : d.unscaled.natAbs < 2 ^ 128) (h0 : 0 ≤ d.scale)
    (hs : d.scale < 2 ^ 31) : d.RoundedOnce := by
  rcases h0.eq_or_lt with h | hpos
  · exact .inr (.inl ⟨h.symm, visible_of_lt hn⟩)
  · refine .inr (.inr ⟨hpos.ne', ?_⟩)
    have hshort := shorten_of_lt (hn.trans (by decide))
    rw [kept, hshort]
    exact .inl ⟨hpos, hs, fun _ _ _ _ => (abs_value d).symm⟩

/-! ## Closeness -/

/-- The product of numbers that are nearly exact. -/
theorem product_near {a m p t : ℚ} (hm : 0 ≤ m) (ht : 0 ≤ t) (ha : |a - m| ≤ m / 2 ^ 52)
    (hp : |p - t| ≤ t / 2 ^ 53) :
    m * t * (1 - 2 / 2 ^ 52) ≤ a * p ∧ a * p ≤ m * t * (1 + 2 / 2 ^ 52) := by
  rw [abs_le] at ha hp
  have hmt := mul_nonneg hm ht
  have hlower : m * (1 - 1 / 2 ^ 52) * (t * (1 - 1 / 2 ^ 53)) ≤ a * p :=
    mul_le_mul (by linarith) (by linarith) (by linarith) (by linarith)
  have hupper : a * p ≤ m * (1 + 1 / 2 ^ 52) * (t * (1 + 1 / 2 ^ 53)) :=
    mul_le_mul (by linarith) (by linarith) (by linarith) (by linarith)
  constructor <;> linarith

/-- Where singles do not overflow, a double made of a whole number and a power of ten is near
their product: neither is long, and both are nearly exact. -/
theorem magnitude_near {m k : Nat} (hm : 1 ≤ m) (hlt : (m * 10 ^ k : ℚ) < single.overflow) :
    |double.value (magnitude m (-k)) - m * 10 ^ k| ≤
      m * 10 ^ k * (3 / 2 ^ 52) + 2 ^ (-1075 : Int) := by
  have hdouble : (2 : ℚ) ^ 129 < double.overflow :=
    (pow_lt_pow_right₀ one_lt_two (by decide)).trans lt_double_overflow
  have hsmall := hlt.trans single_overflow_lt
  have hm' : (1 : ℚ) ≤ m := by exact_mod_cast hm
  have ht : (1 : ℚ) ≤ 10 ^ k := one_le_pow₀ (by norm_num)
  have hk : k < 39 := by
    have hpow : (10 : ℚ) ^ k < 10 ^ 39 :=
      (le_mul_of_one_le_left (by positivity) hm').trans_lt (hsmall.trans (by norm_num))
    exact (pow_lt_pow_iff_right₀ (by norm_num)).mp hpow
  have hshort : (m : ℚ) < 2 ^ 128 :=
    (le_mul_of_one_le_right (by positivity) ht).trans_lt hsmall
  have hinteger := ofNat_double_roundsTo (visible_of_lt (n := m) (by exact_mod_cast hshort))
  have hin : (m : ℚ) < double.overflow :=
    hshort.trans ((pow_lt_pow_right₀ one_lt_two (by decide)).trans hdouble)
  obtain ⟨hfinite, hnear⟩ := power_ten_near k hk
  have hfactor : |double.value (double.ofNat m) - m| ≤ m / 2 ^ 52 := by
    refine (hinteger.abs_double_sub_le (by positivity) hin).trans ?_
    linarith [half_least_le]
  rw [magnitude_of_nonpos (by omega)]
  have hround := mul_roundsTo (hinteger.finite_iff.mpr hin) hfinite
  have hproduct : (0 : ℚ) ≤ m * 10 ^ k := by positivity
  obtain ⟨hlower, hupper⟩ := product_near (by positivity) (by positivity) hfactor hnear
  have hrounded := hround.abs_double_sub_le (by linarith) (by linarith)
  rw [abs_le] at hrounded ⊢
  constructor <;> linarith

/-- Where singles do not overflow the double is close to the decimal. -/
theorem abs_toDouble_sub_le (hv : |d.value| < single.overflow) (hs : d.shorten.2 < 2 ^ 31) :
    |double.value d.toDouble.magnitude - (|d.value|)| ≤ |d.value| / 2 ^ 50 + 2 ^ (-1075 : Int) := by
  have hsmall : (0 : ℚ) < 2 ^ (-1075 : Int) := by positivity
  by_cases hzero : d.unscaled = 0
  · have hv0 : d.value = 0 := by rw [value, hzero, Int.cast_zero, zero_mul]
    rw [d.toDouble_fields.2.1, if_pos hzero, double.value_zero, hv0, abs_zero, sub_zero, abs_zero,
      zero_div, zero_add]
    exact hsmall.le
  have hpos := abs_value_pos hzero
  by_cases hinteger : d.scale = 0
  · have hvisible : Visible d.unscaled.natAbs := by
      rw [abs_value, hinteger, neg_zero, zpow_zero, mul_one] at hv
      exact visible_of_lt (by exact_mod_cast hv.trans single_overflow_lt)
    have honce : d.RoundedOnce := .inr (.inl ⟨hinteger, hvisible⟩)
    have hnear := honce.roundsTo.abs_double_sub_le hpos.le (hv.trans overflow_lt_overflow)
    linarith
  · obtain ⟨hdigits, hlower, hupper⟩ := shorten_near hzero
    rw [d.toDouble_fields.2.1, if_neg hzero, if_neg hinteger]
    have hlt := hlower.trans_lt hv
    have hleft : 0 ≤ d.kept := by
      rw [kept]
      positivity
    have hnear : |double.value (magnitude d.shorten.1 d.shorten.2) - d.kept| ≤
        d.kept * (3 / 2 ^ 52) + 2 ^ (-1075 : Int) := by
      rcases lt_or_ge 0 d.shorten.2 with hpoint | hwhole
      · have hrounded := (magnitude_of_pos (n := d.shorten.1) hpoint hs).abs_double_sub_le
          hleft (hlt.trans overflow_lt_overflow)
        rw [← kept] at hrounded
        linarith
      · obtain ⟨k, hk⟩ := Int.exists_eq_neg_ofNat hwhole
        rw [kept, hk, neg_neg, zpow_natCast] at hlt ⊢
        exact magnitude_near hdigits hlt
    rw [abs_le] at hnear ⊢
    constructor <;> linarith

/-! ## Beyond doubles -/

/-- A whole number and a power of ten whose product is clearly beyond doubles. -/
theorem magnitude_of_nonpos_beyond {m k : Nat} (hk : k < 2 ^ 31)
    (h : double.overflow ≤ m * 10 ^ k * (1 - 1 / 2 ^ 42)) :
    magnitude m (-k) = double.infinity := by
  rw [magnitude_of_nonpos hk]
  by_cases hfinite : double.ofNat m < double.infinity ∧
      double.power (double.round 10 1) k < double.infinity
  · -- both factors are nearly exact, so their product is beyond doubles too
    obtain ⟨x, hx, hround⟩ := ofNat_near (f := double) m
    have hnonneg : (0 : ℚ) ≤ x := le_trans (by positivity) hx
    have hinteger := hround.abs_double_sub_le hnonneg (hround.finite_iff.mp hfinite.1)
    obtain ⟨-, hpower⟩ := (power_ten_lower hk).resolve_left hfinite.2.ne
    have hm : (1 : ℚ) ≤ m := by
      have hpos : m ≠ 0 := by
        rintro rfl
        rw [Nat.cast_zero, zero_mul, zero_mul] at h
        exact absurd h (not_le.mpr double_overflow_pos)
      exact_mod_cast Nat.one_le_iff_ne_zero.mpr hpos
    have hfactor : m * (1 - 1 / 2 ^ 52) ≤ double.value (double.ofNat m) := by
      rw [abs_le] at hinteger
      linarith [half_least_le]
    have hproduct : m * 10 ^ k * (1 - 1 / 2 ^ 42) ≤ double.value (double.ofNat m) *
        double.value (double.power (double.round 10 1) k) :=
      calc (m : ℚ) * 10 ^ k * (1 - 1 / 2 ^ 42)
          ≤ (m : ℚ) * 10 ^ k * ((1 - 1 / 2 ^ 52) * (1 - 1 / 2 ^ 43)) := by
            gcongr
            norm_num
        _ = (m : ℚ) * (1 - 1 / 2 ^ 52) * (10 ^ k * (1 - 1 / 2 ^ 43)) := by ring
        _ ≤ _ := mul_le_mul hfactor hpower (by positivity) (double.value_nonneg _)
    exact (mul_roundsTo hfinite.1 hfinite.2).eq_infinity (h.trans hproduct)
  · exact mul_eq_infinity hfinite

/-- What is clearly beyond doubles becomes infinity. -/
theorem toDouble_beyond (hv : double.overflow * (1 + 1 / 2 ^ 40) ≤ |d.value|) :
    d.toDouble.magnitude = double.infinity := by
  have hoverflow := double_overflow_pos
  have hzero : d.unscaled ≠ 0 := by
    intro h
    rw [value, h, Int.cast_zero, zero_mul, abs_zero] at hv
    exact absurd hv (by linarith)
  rw [d.toDouble_fields.2.1, if_neg hzero]
  by_cases hinteger : d.scale = 0
  · obtain ⟨x, hx, hround⟩ := ofNat_near (f := double) d.unscaled.natAbs
    rw [abs_value, hinteger, neg_zero, zpow_zero, mul_one] at hv
    rw [if_pos hinteger]
    exact hround.eq_infinity (by linarith)
  · obtain ⟨-, -, hupper⟩ := shorten_near hzero
    rw [if_neg hinteger]
    have hkept : double.overflow ≤ d.kept * (1 - 1 / 2 ^ 42) := by linarith
    rcases lt_or_ge 0 d.shorten.2 with hpoint | hwhole
    · rcases lt_or_ge d.shorten.2 (2 ^ 31) with hlt | hlarge
      · exact (magnitude_of_pos hpoint hlt).eq_infinity (by rw [← kept]; linarith)
      · rw [magnitude, if_pos (by omega)]
    · obtain ⟨k, hk⟩ := Int.exists_eq_neg_ofNat hwhole
      rw [hk]
      rcases Nat.lt_or_ge k (2 ^ 31) with hlt | hlarge
      · rw [kept, hk, neg_neg, zpow_natCast] at hkept
        exact magnitude_of_nonpos_beyond hlt hkept
      · rw [magnitude, if_pos (by omega)]

end Decimal

end BsonWriter
