import BsonWriter.Number.Format
import Mathlib.Algebra.Order.Ring.Rat
import Mathlib.Algebra.Order.Field.Power
import Mathlib.Tactic.Linarith
import Mathlib.Tactic.Positivity
import Mathlib.Tactic.Ring

/-!
The numbers that patterns stand for. A pattern is `k` steps of the exponent field and a
significand, whichever way a full significand is split off (`Format.value_pack`), so the next
pattern is one unit further (`Format.value_succ`), patterns are ordered as their values
(`Format.value_strictMono`), and halfway to the next value lies a boundary
(`Format.midpoint`). Rounding counts the boundaries below a number: those are the numbers
that `Format.RoundsTo` relates to a pattern, and of all finite values that of the pattern is
the nearest (`Format.RoundsTo.nearest`).
-/

namespace BsonWriter.Format

variable {f : Format} {b c k q : Nat} {x y : ℚ}

/-- A format with a fraction and with finite values. -/
class Regular (f : Format) : Prop where
  two_le_precision : 2 ≤ f.precision
  exponentBits_pos : 0 < f.exponentBits

instance : Regular single := ⟨by decide, by decide⟩

instance : Regular double := ⟨by decide, by decide⟩

/-! ## Patterns and their values -/

/-- The number a pattern stands for. Infinity counts as the power of two that would follow the
finite values. -/
def value (f : Format) (bits : Nat) : ℚ := f.significand bits * 2 ^ f.exponent bits

theorem step_eq (f : Format) : f.step = 2 ^ (f.precision - 1) := Nat.one_shiftLeft _

theorem step_pos (f : Format) : 0 < f.step := by
  rw [step_eq]
  exact Nat.two_pow_pos _

theorem two_pow_precision [f.Regular] : 2 ^ f.precision = 2 * f.step := by
  have hp := Regular.two_le_precision (f := f)
  rw [step_eq, ← pow_succ', show f.precision - 1 + 1 = f.precision by omega]

theorem step_even [f.Regular] : f.step % 2 = 0 := by
  have hp := Regular.two_le_precision (f := f)
  rw [step_eq, show f.precision - 1 = f.precision - 2 + 1 by omega, Nat.pow_succ]
  exact Nat.mul_mod_left _ 2

theorem infinity_eq (f : Format) : f.infinity = (2 ^ f.exponentBits - 1) * f.step := by
  rw [infinity, Nat.one_shiftLeft]

theorem infinity_pos [f.Regular] : 0 < f.infinity := by
  have hb : 2 ^ 1 ≤ 2 ^ f.exponentBits :=
    Nat.pow_le_pow_right (by decide) (Regular.exponentBits_pos (f := f))
  rw [infinity_eq]
  exact Nat.mul_pos (by omega) f.step_pos

theorem infinity_even [f.Regular] : f.infinity % 2 = 0 := by
  rw [infinity_eq, Nat.mul_mod, step_even, Nat.mul_zero]

/-- Every pattern is some steps of the exponent field and a significand, which is a full one
unless there are no steps. -/
theorem exists_pack (f : Format) (b : Nat) : ∃ k q, b = k * f.step + q ∧
    (k = 0 ∨ f.step ≤ q) ∧ q < 2 * f.step ∧ f.significand b = q ∧
    f.exponent b = f.leastExponent + k := by
  have hs := f.step_pos
  rcases Nat.lt_or_ge b f.step with hb | hb
  · refine ⟨0, b, by simp, .inl rfl, by omega, by rw [significand, if_pos hb], ?_⟩
    rw [exponent, Nat.div_eq_of_lt hb]
  · have hdiv : 0 < b / f.step := Nat.div_pos hb hs
    have hmod := Nat.mod_lt b hs
    have hsum := Nat.div_add_mod' b f.step
    refine ⟨b / f.step - 1, b % f.step + f.step, ?_, .inr (Nat.le_add_left ..), by omega,
      by rw [significand, if_neg (by omega)], by rw [exponent]⟩
    rw [Nat.sub_mul, Nat.one_mul]
    have := Nat.le_mul_of_pos_left f.step hdiv
    omega

/-- What steps and a significand stand for. The significand may run over by one. -/
theorem value_pack (hk : k = 0 ∨ f.step ≤ q) (hq : q ≤ 2 * f.step) :
    f.value (k * f.step + q) = q * 2 ^ (f.leastExponent + k) := by
  have hs := f.step_pos
  rcases Nat.lt_or_ge q f.step with hlow | hfull
  · obtain rfl : k = 0 := by omega
    rw [Nat.zero_mul, Nat.zero_add, value, significand, if_pos hlow, exponent,
      Nat.div_eq_of_lt hlow]
  · have hpast : ¬ k * f.step + q < f.step := by omega
    rcases Nat.lt_or_ge q (2 * f.step) with hlt | hge
    · -- a full significand is its leading one and the rest
      obtain ⟨r, rfl⟩ := Nat.exists_eq_add_of_le hfull
      have hr : r < f.step := by omega
      have hsplit : k * f.step + (f.step + r) = r + (k + 1) * f.step := by
        rw [Nat.succ_mul]
        omega
      rw [value, significand, if_neg hpast, exponent, hsplit, Nat.add_mul_mod_self_right,
        Nat.mod_eq_of_lt hr, Nat.add_mul_div_right _ _ hs, Nat.div_eq_of_lt hr, Nat.zero_add,
        Nat.add_sub_cancel, Nat.add_comm r]
    · -- one too many is one more step and the least full significand
      obtain rfl : q = 2 * f.step := by omega
      have hsplit : k * f.step + 2 * f.step = (k + 2) * f.step := (Nat.add_mul ..).symm
      rw [value, significand, if_neg hpast, exponent, hsplit, Nat.mul_mod_left,
        Nat.mul_div_cancel _ hs, show k + 2 - 1 = k + 1 by omega, Nat.zero_add, Nat.cast_succ,
        ← add_assoc, zpow_add_one₀ two_ne_zero]
      push_cast
      ring

theorem value_succ (f : Format) (b : Nat) : f.value (b + 1) = f.value b + 2 ^ f.exponent b := by
  obtain ⟨k, q, rfl, hk, hq, -, he⟩ := f.exists_pack b
  rw [he, value_pack hk hq.le, Nat.add_assoc, value_pack (by omega) hq]
  push_cast
  ring

theorem value_strictMono (f : Format) : StrictMono f.value :=
  strictMono_nat_of_lt_succ fun b => by
    rw [value_succ]
    exact lt_add_of_pos_right _ (by positivity)

theorem value_zero (f : Format) : f.value 0 = 0 := by
  rw [value, significand, if_pos f.step_pos, Nat.cast_zero, zero_mul]

theorem value_nonneg (f : Format) (b : Nat) : 0 ≤ f.value b := by
  rw [value]
  positivity

/-- What has few enough bits, and none too small, is the value of a pattern. -/
theorem exists_value_eq {n : Nat} (hn : n ≤ 2 * f.step) (k : Nat) :
    ∃ b, f.value b = n * 2 ^ (f.leastExponent + k) := by
  induction k generalizing n with
  | zero => exact ⟨n, by simpa using value_pack (f := f) (.inl rfl) hn⟩
  | succ k ih =>
    rcases Nat.lt_or_ge n f.step with hlow | hfull
    · -- there is room for another bit
      obtain ⟨b, hb⟩ := @ih (2 * n) (by omega)
      refine ⟨b, ?_⟩
      rw [hb, Nat.cast_succ, ← add_assoc, zpow_add_one₀ two_ne_zero]
      push_cast
      ring
    · exact ⟨_, value_pack (.inr hfull) hn⟩

/-! ## Boundaries -/

/-- Halfway from the value of a pattern to the next. -/
def midpoint (f : Format) (bits : Nat) : ℚ := (f.value bits + f.value (bits + 1)) / 2

/-- From here on numbers are too great for a finite value. -/
def overflow (f : Format) : ℚ := f.midpoint (f.infinity - 1)

theorem value_lt_midpoint (f : Format) (b : Nat) : f.value b < f.midpoint b := by
  have h := f.value_strictMono b.lt_succ_self
  rw [midpoint]
  linarith

theorem midpoint_lt_value_succ (f : Format) (b : Nat) : f.midpoint b < f.value (b + 1) := by
  have h := f.value_strictMono b.lt_succ_self
  rw [midpoint]
  linarith

theorem midpoint_strictMono (f : Format) : StrictMono f.midpoint :=
  strictMono_nat_of_lt_succ fun b =>
    (f.midpoint_lt_value_succ b).trans (f.value_lt_midpoint (b + 1))

theorem midpoint_lt_value_iff : f.midpoint c < f.value b ↔ c < b := by
  constructor
  · intro h
    exact f.value_strictMono.lt_iff_lt.mp ((f.value_lt_midpoint c).trans h)
  · intro h
    exact (f.midpoint_lt_value_succ c).trans_le (f.value_strictMono.monotone h)

theorem midpoint_eq (f : Format) (b : Nat) :
    f.midpoint b = f.value b + 2 ^ f.exponent b / 2 := by
  rw [midpoint, value_succ]
  ring

/-- The boundary behind steps and a significand. -/
theorem midpoint_pack (hk : k = 0 ∨ f.step ≤ q) (hq : q < 2 * f.step) :
    f.midpoint (k * f.step + q) = (q + 1 / 2) * 2 ^ (f.leastExponent + k) := by
  rw [midpoint, value_pack hk hq.le, Nat.add_assoc, value_pack (by omega) hq]
  push_cast
  ring

/-- Numbers that round to a greater pattern than `c`: those beyond its boundary, and the
boundary itself if the next pattern is the even one. -/
def Above (f : Format) (c : Nat) (x : ℚ) : Prop :=
  f.midpoint c < x ∨ f.midpoint c = x ∧ c % 2 = 1

theorem Above.le (h : f.Above c x) : f.midpoint c ≤ x :=
  h.elim le_of_lt fun h => h.1.le

theorem Above.mono (h : f.Above c x) (hxy : x ≤ y) : f.Above c y := by
  rcases h with h | ⟨rfl, hodd⟩
  · exact .inl (h.trans_le hxy)
  · exact hxy.lt_or_eq.imp_right fun h => ⟨h, hodd⟩

theorem Above.anti (h : f.Above c x) (hb : b ≤ c) : f.Above b x := by
  rcases hb.lt_or_eq with hlt | rfl
  · exact .inl ((f.midpoint_strictMono hlt).trans_le h.le)
  · exact h

theorem above_iff_of_ne (h : f.midpoint c ≠ x) : f.Above c x ↔ f.midpoint c < x :=
  ⟨fun ha => lt_of_le_of_ne ha.le h, .inl⟩

theorem midpoint_zero (f : Format) : f.midpoint 0 = 2 ^ (f.leastExponent - 1) := by
  have h := midpoint_pack (f := f) (k := 0) (q := 0) (.inl rfl) (by have := f.step_pos; omega)
  rw [Nat.zero_mul, Nat.zero_add, Nat.cast_zero, Nat.cast_zero, zero_add, add_zero] at h
  rw [h, zpow_sub_one₀ two_ne_zero]
  ring

theorem value_infinity [f.Regular] :
    f.value f.infinity = f.step * 2 ^ (f.leastExponent + (2 ^ f.exponentBits - 2 : Nat)) := by
  have hb : 2 ^ 1 ≤ 2 ^ f.exponentBits :=
    Nat.pow_le_pow_right (by decide) (Regular.exponentBits_pos (f := f))
  have hs := f.step_pos
  rw [infinity_eq, show 2 ^ f.exponentBits - 1 = 2 ^ f.exponentBits - 2 + 1 by omega,
    Nat.succ_mul, value_pack (.inr le_rfl) (by omega)]

/-- Overflow begins between the greatest finite value and the power of two behind it. -/
theorem overflow_bounds [f.Regular] :
    f.overflow < f.value f.infinity ∧ f.value f.infinity < 2 * f.overflow := by
  have hpos := infinity_pos (f := f)
  have heven := infinity_even (f := f)
  obtain ⟨k, q, hpack, hk, hq, -, he⟩ := f.exists_pack (f.infinity - 1)
  have hs := f.step_pos
  have hone : (1 : ℚ) ≤ q := by exact_mod_cast (show 1 ≤ q by rcases hk with rfl | h <;> omega)
  have hlast := f.value_lt_midpoint (f.infinity - 1)
  have hnext := f.midpoint_lt_value_succ (f.infinity - 1)
  have hstep := f.value_succ (f.infinity - 1)
  rw [show f.infinity - 1 + 1 = f.infinity by omega] at hnext hstep
  have hunit : (2 : ℚ) ^ f.exponent (f.infinity - 1) ≤ f.value (f.infinity - 1) := by
    have hvalue := value_pack (f := f) hk hq.le
    rw [← hpack] at hvalue
    rw [he, hvalue]
    exact le_mul_of_one_le_left (by positivity) hone
  rw [overflow]
  exact ⟨hnext, by linarith⟩

theorem above_midpoint_iff : f.Above c (f.midpoint c) ↔ c % 2 = 1 := by
  simp [Above]

theorem above_value_iff : f.Above c (f.value b) ↔ c < b := by
  have hne : f.midpoint c ≠ f.value b := by
    intro h
    rcases Nat.lt_or_ge c b with hlt | hge
    · exact (midpoint_lt_value_iff.mpr hlt).ne h
    · have := f.value_strictMono.monotone hge
      exact absurd (f.value_lt_midpoint c) (by rw [h]; exact this.not_gt)
  rw [above_iff_of_ne hne, midpoint_lt_value_iff]

/-! ## Rounding -/

/-- Rounding to the nearest value, and to the even pattern halfway: the pattern counts the
boundaries that `x` is above, up to infinity. -/
structure RoundsTo (f : Format) (x : ℚ) (b : Nat) : Prop where
  le_infinity : b ≤ f.infinity
  lt_iff : ∀ c < f.infinity, c < b ↔ f.Above c x

namespace RoundsTo

theorem unique (hb : f.RoundsTo x b) (hc : f.RoundsTo x c) : b = c := by
  refine Nat.le_antisymm (Nat.le_of_not_lt fun h => ?_) (Nat.le_of_not_lt fun h => ?_)
  · have hlt := h.trans_le hb.le_infinity
    exact (Nat.lt_irrefl c) ((hc.lt_iff c hlt).mpr ((hb.lt_iff c hlt).mp h))
  · have hlt := h.trans_le hc.le_infinity
    exact (Nat.lt_irrefl b) ((hb.lt_iff b hlt).mpr ((hc.lt_iff b hlt).mp h))

theorem mono (hb : f.RoundsTo x b) (hc : f.RoundsTo y c) (h : x ≤ y) : b ≤ c := by
  refine Nat.le_of_not_lt fun hlt => ?_
  have hc' := hlt.trans_le hb.le_infinity
  exact (Nat.lt_irrefl c) ((hc.lt_iff c hc').mpr (((hb.lt_iff c hc').mp hlt).mono h))

/-- A value rounds to itself. -/
theorem of_value (hb : b ≤ f.infinity) : f.RoundsTo (f.value b) b :=
  ⟨hb, fun _ _ => above_value_iff.symm⟩

theorem finite_iff [f.Regular] (h : f.RoundsTo x b) : b < f.infinity ↔ x < f.overflow := by
  have hpos := infinity_pos (f := f)
  have heven := infinity_even (f := f)
  have hlast := h.lt_iff (f.infinity - 1) (by omega)
  have hle := h.le_infinity
  rw [show f.infinity - 1 < b ↔ ¬ b < f.infinity by omega] at hlast
  rw [← not_iff_not, hlast, not_lt]
  refine ⟨Above.le, fun hx => hx.lt_or_eq.imp_right fun h => ⟨h, ?_⟩⟩
  omega

theorem eq_infinity [f.Regular] (h : f.RoundsTo x b) (hx : f.overflow ≤ x) : b = f.infinity :=
  h.le_infinity.antisymm (Nat.le_of_not_lt fun hb => absurd (h.finite_iff.mp hb) (not_lt.mpr hx))

end RoundsTo

/-- Of two numbers the lesser is no farther from `x` iff `x` is not beyond the middle. -/
theorem abs_sub_le_abs_sub_iff {u v : ℚ} (h : u < v) : |x - u| ≤ |x - v| ↔ x ≤ (u + v) / 2 := by
  rw [← sq_le_sq]
  constructor <;> intro h' <;> nlinarith

theorem abs_sub_ge_abs_sub_iff {u v : ℚ} (h : u < v) : |x - v| ≤ |x - u| ↔ (u + v) / 2 ≤ x := by
  rw [← sq_le_sq]
  constructor <;> intro h' <;> nlinarith

/-- To a number that does not overflow no finite value is nearer than that of `b` iff `b` lies
on the same side of every boundary. -/
theorem nearest_iff [f.Regular] (hb : b < f.infinity) (hx : x < f.overflow) :
    (∀ c < f.infinity, |x - f.value b| ≤ |x - f.value c|) ↔
      ∀ c < f.infinity, f.midpoint c ≠ x → (c < b ↔ f.midpoint c < x) := by
  constructor
  · intro h c hc hne
    constructor
    · intro hcb
      -- the value of `c` is not nearer, and that of `b` is no less than the next
      have hle := (abs_sub_ge_abs_sub_iff (f.value_strictMono hcb)).mp (h c hc)
      have hnext := f.value_strictMono.monotone (show c + 1 ≤ b from hcb)
      refine lt_of_le_of_ne ?_ hne
      rw [midpoint]
      linarith
    · intro hlt
      refine Nat.lt_of_not_le fun hbc => ?_
      rcases Nat.lt_or_ge (c + 1) f.infinity with hfinite | hlast
      · have hle := (abs_sub_le_abs_sub_iff (f.value_strictMono (show b < c + 1 by omega))).mp
          (h (c + 1) hfinite)
        have hprev := f.value_strictMono.monotone hbc
        rw [midpoint] at hlt
        linarith
      · obtain rfl : c = f.infinity - 1 := by omega
        exact lt_asymm hx hlt
  · intro h c hc
    rcases Nat.lt_trichotomy c b with hcb | rfl | hbc
    · have hle : f.midpoint (b - 1) ≤ x := by
        by_cases hne : f.midpoint (b - 1) = x
        · exact hne.le
        · exact ((h (b - 1) (by omega) hne).mp (by omega)).le
      have hprev := f.value_strictMono.monotone (show c ≤ b - 1 by omega)
      rw [midpoint, show b - 1 + 1 = b by omega] at hle
      exact (abs_sub_ge_abs_sub_iff (f.value_strictMono hcb)).mpr (by linarith)
    · exact le_refl _
    · have hle : x ≤ f.midpoint b := by
        by_cases hne : f.midpoint b = x
        · exact hne.ge
        · exact not_lt.mp (mt (h b hb hne).mpr (Nat.lt_irrefl b))
      have hnext := f.value_strictMono.monotone (show b + 1 ≤ c from hbc)
      rw [midpoint] at hle
      exact (abs_sub_le_abs_sub_iff (f.value_strictMono hbc)).mpr (by linarith)

/-- The value a number rounds to is a nearest one. -/
theorem RoundsTo.nearest [f.Regular] (h : f.RoundsTo x b) (hx : x < f.overflow) :
    ∀ c < f.infinity, |x - f.value b| ≤ |x - f.value c| := by
  rw [nearest_iff (h.finite_iff.mpr hx) hx]
  intro c hc hne
  rw [h.lt_iff c hc, above_iff_of_ne hne]

/-- Half of a unit is small against the value, or as small as half of the least value. -/
theorem half_unit_le (f : Format) (c : Nat) :
    (2 : ℚ) ^ f.exponent c / 2 ≤ f.value c / (2 * f.step) + 2 ^ (f.leastExponent - 1) := by
  obtain ⟨k, q, rfl, hk, hq, -, he⟩ := f.exists_pack c
  have hs : (0 : ℚ) < f.step := by exact_mod_cast f.step_pos
  have hleast : (0 : ℚ) < 2 ^ (f.leastExponent - 1) := by positivity
  rw [he, value_pack hk hq.le]
  rcases hk with rfl | hfull
  · rw [Nat.cast_zero, add_zero, zpow_sub_one₀ two_ne_zero, div_eq_mul_inv _ (2 : ℚ)]
    have : (0 : ℚ) ≤ q * 2 ^ f.leastExponent / (2 * f.step) := by positivity
    linarith
  · have hfull' : (f.step : ℚ) ≤ q := by exact_mod_cast hfull
    have hle : (2 : ℚ) ^ (f.leastExponent + k) / 2 ≤
        q * 2 ^ (f.leastExponent + k) / (2 * f.step) := by
      rw [div_le_div_iff₀ two_pos (by positivity)]
      nlinarith [show (0 : ℚ) < 2 ^ (f.leastExponent + k) by positivity]
    linarith

/-- Rounding moves a number by half a unit at most. -/
theorem RoundsTo.abs_sub_le [f.Regular] (h : f.RoundsTo x b) (h0 : 0 ≤ x) (hx : x < f.overflow) :
    |f.value b - x| ≤ x / (2 * f.step) + 2 ^ (f.leastExponent - 1) := by
  have hs : (0 : ℚ) < f.step := by exact_mod_cast f.step_pos
  have hfinite := h.finite_iff.mpr hx
  rcases le_total (f.value b) x with hle | hle
  · -- `x` does not lie beyond the boundary behind `b`
    have hupper : x ≤ f.midpoint b :=
      le_of_not_gt fun hgt => Nat.lt_irrefl b ((h.lt_iff b hfinite).mpr (.inl hgt))
    have hvalue : f.value b / (2 * f.step) ≤ x / (2 * f.step) := by gcongr
    rw [abs_sub_comm, abs_of_nonneg (by linarith)]
    rw [midpoint_eq] at hupper
    linarith [f.half_unit_le b]
  · rcases Nat.eq_zero_or_pos b with rfl | hb
    · rw [value_zero] at hle ⊢
      rw [le_antisymm hle h0]
      simp only [sub_self, abs_zero, zero_div, zero_add]
      positivity
    · -- nor before the one in front of it
      have hlower := ((h.lt_iff (b - 1) (by omega)).mp (by omega)).le
      have hvalue : f.value (b - 1) / (2 * f.step) ≤ x / (2 * f.step) := by
        gcongr
        exact (f.value_lt_midpoint (b - 1)).le.trans hlower
      have hnext := f.value_succ (b - 1)
      rw [show b - 1 + 1 = b by omega] at hnext
      rw [abs_of_nonneg (by linarith)]
      rw [midpoint_eq] at hlower
      linarith [f.half_unit_le (b - 1)]

end BsonWriter.Format
