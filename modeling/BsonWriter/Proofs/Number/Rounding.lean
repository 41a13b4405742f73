import BsonWriter.Proofs.Number.Values
import Mathlib.Algebra.Order.Group.MinMax

/-!
The operations on patterns round correctly: dividing integers (`Format.round_roundsTo`),
multiplying (`Format.mul_roundsTo`), and reading a pattern in another format
(`Format.convert_roundsTo`). All of them round one ratio: its exponent is found from the bits of
its parts (`Format.ratioExponent_spec`), and the integer that is nearest at this exponent gives
the pattern (`Format.roundsTo_pack`).
-/

namespace BsonWriter

variable {den n : Nat}

/-- No integer is nearer than the rounded one, and halfway it is even. -/
theorem roundHalfEven_spec (num : Nat) (hd : 0 < den) :
    2 * num ≤ 2 * (den * roundHalfEven num den) + den ∧
      2 * (den * roundHalfEven num den) ≤ 2 * num + den ∧
      (2 * num = 2 * (den * roundHalfEven num den) + den ∨
        2 * (den * roundHalfEven num den) = 2 * num + den → roundHalfEven num den % 2 = 0) := by
  have hmod := Nat.mod_lt num hd
  have hsum := Nat.div_add_mod num den
  rw [roundHalfEven]
  split
  · omega
  · split
    · rw [Nat.mul_add_one]
      omega
    · rcases Nat.mod_two_eq_zero_or_one (num / den) with h | h <;> rw [h]
      · rw [Nat.add_zero]
        omega
      · rw [Nat.mul_add_one]
        omega

namespace Format

variable {f source target : Format} {a b c : Nat} {e : Int} {x : ℚ}

theorem roundHalfEven_cast (num : Nat) (hd : 0 < den) :
    (num / den : ℚ) ≤ roundHalfEven num den + 1 / 2 ∧
      (roundHalfEven num den - 1 / 2 : ℚ) ≤ num / den ∧
      ((num / den : ℚ) = roundHalfEven num den + 1 / 2 ∨
        (roundHalfEven num den - 1 / 2 : ℚ) = num / den → roundHalfEven num den % 2 = 0) := by
  obtain ⟨hle, hge, heven⟩ := roundHalfEven_spec num hd
  generalize roundHalfEven num den = q at *
  have hd' : (0 : ℚ) < den := by exact_mod_cast hd
  have hcancel : (num / den : ℚ) * den = num := div_mul_cancel₀ _ hd'.ne'
  have hle' : (2 * num : ℚ) ≤ 2 * (den * q) + den := by exact_mod_cast hle
  have hge' : (2 * (den * q) : ℚ) ≤ 2 * num + den := by exact_mod_cast hge
  refine ⟨?_, ?_, fun h => heven ?_⟩
  · rw [div_le_iff₀ hd']
    linarith
  · rw [le_div_iff₀ hd']
    linarith
  · have h' : (2 * num : ℚ) = 2 * (den * q) + den ∨ (2 * (den * q) : ℚ) = 2 * num + den := by
      rcases h with h | h
      · left
        rw [h] at hcancel
        linarith
      · right
        rw [← h] at hcancel
        linarith
    exact_mod_cast h'

/-! ## Ratios -/

theorem scaled_pos (n : Nat) (e : Int) : 0 < (scaled n e).2 := by
  rw [scaled]
  split
  · exact Nat.one_pos
  · rw [Nat.one_shiftLeft]
    exact Nat.two_pow_pos _

theorem scaled_div (n : Nat) (e : Int) :
    ((scaled n e).1 / (scaled n e).2 : ℚ) = n * 2 ^ e := by
  rw [scaled]
  split
  · rename_i h
    obtain ⟨k, rfl⟩ := Int.eq_ofNat_of_zero_le h
    simp [Nat.shiftLeft_eq]
  · rename_i h
    obtain ⟨k, rfl⟩ := Int.exists_eq_neg_ofNat (le_of_not_ge h)
    simp [Nat.one_shiftLeft, div_eq_mul_inv]

/-- The ratio that is rounded to an integer, once the exponent is known. -/
theorem scaled_div_div (num den : Nat) (e : Int) :
    ((scaled num (-e)).1 / (den * (scaled num (-e)).2 : Nat) : ℚ) = num / den / 2 ^ e := by
  have h := scaled_div num (-e)
  rw [zpow_neg, ← div_eq_mul_inv] at h
  rw [Nat.cast_mul, mul_comm (den : ℚ), ← div_div, h, div_right_comm]

/-- A positive ratio lies between powers of two that the bits of its parts tell. -/
theorem log2_div_bounds {num : Nat} (hn : num ≠ 0) (hd : den ≠ 0) :
    (2 : ℚ) ^ ((num.log2 : Int) - den.log2 - 1) ≤ num / den ∧
      (num / den : ℚ) < 2 ^ ((num.log2 : Int) - den.log2 + 1) := by
  have hd' : (0 : ℚ) < den := by exact_mod_cast Nat.pos_of_ne_zero hd
  have hn₁ : (2 : ℚ) ^ num.log2 ≤ num := by exact_mod_cast Nat.log2_self_le hn
  have hn₂ : (num : ℚ) < 2 ^ (num.log2 + 1) := by exact_mod_cast Nat.lt_log2_self
  have hd₁ : (2 : ℚ) ^ den.log2 ≤ den := by exact_mod_cast Nat.log2_self_le hd
  have hd₂ : (den : ℚ) < 2 ^ (den.log2 + 1) := by exact_mod_cast Nat.lt_log2_self
  constructor
  · rw [le_div_iff₀ hd']
    calc (2 : ℚ) ^ ((num.log2 : Int) - den.log2 - 1) * den
        ≤ 2 ^ ((num.log2 : Int) - den.log2 - 1) * 2 ^ (den.log2 + 1) := by gcongr
      _ = 2 ^ num.log2 := by
        rw [← zpow_natCast, ← zpow_add₀ two_ne_zero, ← zpow_natCast]
        congr 1
        push_cast
        ring
      _ ≤ num := hn₁
  · rw [div_lt_iff₀ hd']
    calc (num : ℚ) < 2 ^ (num.log2 + 1) := hn₂
      _ = 2 ^ ((num.log2 : Int) - den.log2 + 1) * 2 ^ den.log2 := by
        rw [← zpow_natCast, ← zpow_natCast, ← zpow_add₀ two_ne_zero]
        congr 1
        push_cast
        ring
      _ ≤ 2 ^ ((num.log2 : Int) - den.log2 + 1) * den := by gcongr

theorem two_zpow_precision [f.Regular] (e : Int) :
    (2 : ℚ) ^ (e + f.precision) = 2 * f.step * 2 ^ e := by
  have h : ((2 ^ f.precision : Nat) : ℚ) = (2 * f.step : Nat) := congrArg _ two_pow_precision
  push_cast at h
  rw [zpow_add₀ two_ne_zero, zpow_natCast, h]
  ring

/-- At its exponent a ratio has a full significand, or less than that at the least exponent. -/
theorem ratioExponent_spec [f.Regular] {num : Nat} (hn : num ≠ 0) (hd : den ≠ 0) :
    f.leastExponent ≤ f.ratioExponent num den ∧
      (num / den : ℚ) < 2 * f.step * 2 ^ f.ratioExponent num den ∧
      (f.ratioExponent num den = f.leastExponent ∨
        f.step * 2 ^ f.ratioExponent num den ≤ (num / den : ℚ)) := by
  obtain ⟨hlower, hupper⟩ := log2_div_bounds hn hd
  set e : Int := (num.log2 : Int) - den.log2 - f.precision with he
  have hdiv := scaled_div_div num den e
  have hpow : (0 : ℚ) < 2 ^ e := by positivity
  rw [show (num.log2 : Int) - den.log2 - 1 = e - 1 + f.precision by omega,
    two_zpow_precision, zpow_sub_one₀ two_ne_zero] at hlower
  rw [show (num.log2 : Int) - den.log2 + 1 = e + 1 + f.precision by omega,
    two_zpow_precision, zpow_add_one₀ two_ne_zero] at hupper
  -- the first guess is right if the significand has no bit too many
  have hguess : ∃ e', f.ratioExponent num den = max f.leastExponent e' ∧
      (num / den : ℚ) < 2 * f.step * 2 ^ e' ∧ f.step * 2 ^ e' ≤ (num / den : ℚ) := by
    have hden : 0 < den * (scaled num (-e)).2 :=
      Nat.mul_pos (Nat.pos_of_ne_zero hd) (scaled_pos num (-e))
    have htest : (scaled num (-e)).1 / (den * (scaled num (-e)).2) < 1 <<< f.precision ↔
        (num / den : ℚ) < 2 * f.step * 2 ^ e := by
      rw [Nat.div_lt_iff_lt_mul hden, ← div_lt_iff₀ hpow, ← hdiv,
        div_lt_iff₀ (by exact_mod_cast hden), Nat.one_shiftLeft, two_pow_precision]
      norm_cast
    by_cases h : (num / den : ℚ) < 2 * f.step * 2 ^ e
    · refine ⟨e, ?_, h, by linarith⟩
      rw [ratioExponent]
      dsimp only
      rw [← he, if_pos (htest.mpr h)]
    · refine ⟨e + 1, ?_, ?_, ?_⟩
      · rw [ratioExponent]
        dsimp only
        rw [← he, if_neg (mt htest.mp h)]
      · rw [zpow_add_one₀ two_ne_zero]
        exact hupper
      · rw [zpow_add_one₀ two_ne_zero]
        linarith
  obtain ⟨e', heq, hlt, hge⟩ := hguess
  rw [heq]
  refine ⟨le_max_left .., ?_, ?_⟩
  · refine hlt.trans_le ?_
    gcongr
    · norm_num
    · exact le_max_right ..
  · rcases le_total f.leastExponent e' with h | h
    · rw [max_eq_right h]
      exact .inr hge
    · exact .inl (max_eq_left h)

/-- An integer significand that is nearest at some exponent gives the pattern to round to. -/
theorem roundsTo_pack [f.Regular] {k q : Nat} (hq : q ≤ 2 * f.step)
    (hk : k = 0 ∨ f.step ≤ q ∧ f.step * 2 ^ (f.leastExponent + k) ≤ x)
    (hupper : x < 2 * f.step * 2 ^ (f.leastExponent + k))
    (hle : x ≤ (q + 1 / 2) * 2 ^ (f.leastExponent + k))
    (hge : (q - 1 / 2) * 2 ^ (f.leastExponent + k) ≤ x)
    (heven : x = (q + 1 / 2) * 2 ^ (f.leastExponent + k) ∨
      (q - 1 / 2) * 2 ^ (f.leastExponent + k) = x → q % 2 = 0) :
    f.RoundsTo x (min f.infinity (k * f.step + q)) := by
  have hparity : (k * f.step + q) % 2 = q % 2 := by
    rw [Nat.add_mod, Nat.mul_mod, step_even, Nat.mul_zero, Nat.zero_mod, Nat.zero_add,
      Nat.mod_mod]
  have hpack : k = 0 ∨ f.step ≤ q := hk.imp_right And.left
  -- the boundary behind the pattern is not passed
  have hnext : ¬ f.Above (k * f.step + q) x := by
    rcases hq.lt_or_eq with hlt | rfl
    · rw [Above, midpoint_pack hpack hlt, hparity]
      rintro (h | ⟨h, hodd⟩)
      · exact absurd hle h.not_ge
      · have := heven (.inl h.symm)
        omega
    · intro h
      have hvalue := f.value_lt_midpoint (k * f.step + 2 * f.step)
      rw [value_pack hpack le_rfl] at hvalue
      push_cast at hvalue
      linarith [h.le]
  -- and the one before it is
  have hprev : ∀ c, c + 1 = k * f.step + q → f.Above c x := by
    intro c hc
    by_cases hroom : k = 0 ∨ f.step < q
    · obtain ⟨r, rfl⟩ : ∃ r, q = r + 1 := ⟨q - 1, by
        rcases hroom with rfl | h
        · omega
        · have := f.step_pos
          omega⟩
      obtain rfl : c = k * f.step + r := by omega
      rw [Above, midpoint_pack (by omega) (by omega)]
      push_cast at hge heven
      rw [show (r + 1 - 1 / 2 : ℚ) = r + 1 / 2 by ring] at hge heven
      rcases hge.lt_or_eq with h | h
      · exact .inl h
      · have := heven (.inr h)
        exact .inr ⟨h, by omega⟩
    · -- the least full significand, and `x` is no less than its value
      have hvalue := f.midpoint_lt_value_succ c
      rw [hc, value_pack hpack hq, show q = f.step by omega] at hvalue
      exact .inl (hvalue.trans_le (hk.resolve_left (by omega)).2)
  refine ⟨Nat.min_le_left .., fun c hc => ?_⟩
  rw [Nat.lt_min, and_iff_right hc]
  constructor
  · intro h
    exact (hprev (k * f.step + q - 1) (by omega)).anti (by omega)
  · intro h
    exact Nat.lt_of_not_le fun hle => hnext (h.anti hle)

/-- A quotient of integers is rounded to the nearest value. -/
theorem round_roundsTo [f.Regular] (num : Nat) (hd : 0 < den) :
    f.RoundsTo (num / den) (f.round num den) := by
  by_cases hn : num = 0
  · rw [hn, round, if_pos rfl, Nat.cast_zero, zero_div, ← f.value_zero]
    exact .of_value (Nat.zero_le _)
  obtain ⟨hleast, hupper, hfull⟩ := ratioExponent_spec (f := f) hn hd.ne'
  rw [round, if_neg hn]
  dsimp only
  obtain ⟨k, hk⟩ := Int.le.dest hleast
  generalize f.ratioExponent num den = e at hleast hupper hfull hk ⊢
  subst hk
  rw [show (f.leastExponent + k - f.leastExponent).toNat = k by omega]
  have hdiv := scaled_div_div num den (f.leastExponent + k)
  obtain ⟨hle, hge, heven⟩ := roundHalfEven_cast (scaled num (-(f.leastExponent + k))).1
    (Nat.mul_pos hd (scaled_pos num (-(f.leastExponent + k))))
  rw [hdiv] at hle hge heven
  generalize roundHalfEven _ _ = q at *
  have hpow : (0 : ℚ) < 2 ^ (f.leastExponent + k) := by positivity
  rw [div_le_iff₀ hpow] at hle
  rw [le_div_iff₀ hpow] at hge
  rw [div_eq_iff hpow.ne', eq_div_iff hpow.ne'] at heven
  refine roundsTo_pack ?_ ?_ hupper hle hge heven
  · -- a greater integer would be too far off
    have h := lt_of_mul_lt_mul_right (hge.trans_lt hupper) hpow.le
    have h' : (q : ℚ) < (2 * f.step : Nat) + 1 := by
      push_cast
      linarith
    have : q < 2 * f.step + 1 := by exact_mod_cast h'
    omega
  · rcases hfull with h | h
    · exact .inl (by omega)
    · refine .inr ⟨?_, h⟩
      have h' := le_of_mul_le_mul_right (h.trans hle) hpow
      have h'' : ((f.step : Nat) : ℚ) < (q : Nat) + 1 := by linarith
      have : f.step < q + 1 := by exact_mod_cast h''
      omega

theorem scaled_roundsTo [f.Regular] (n : Nat) (e : Int) :
    f.RoundsTo (n * 2 ^ e) (f.round (scaled n e).1 (scaled n e).2) := by
  rw [← scaled_div]
  exact round_roundsTo _ (scaled_pos n e)

/-- The product of finite values is rounded to the nearest value. -/
theorem mul_roundsTo [f.Regular] (ha : a < f.infinity) (hb : b < f.infinity) :
    f.RoundsTo (f.value a * f.value b) (f.mul a b) := by
  have hvalue : f.value a * f.value b =
      (f.significand a * f.significand b : Nat) * 2 ^ (f.exponent a + f.exponent b) := by
    rw [value, value, zpow_add₀ two_ne_zero]
    push_cast
    ring
  rw [mul, if_pos (by simp [isFinite, ha, hb]), hvalue]
  exact scaled_roundsTo _ _

theorem mul_eq_infinity (h : ¬(a < f.infinity ∧ b < f.infinity)) : f.mul a b = f.infinity := by
  rw [mul, if_neg (by simpa [isFinite] using h)]

/-- A finite value is rounded to the nearest value of another format. -/
theorem convert_roundsTo [target.Regular] (hb : b < source.infinity) :
    target.RoundsTo (source.value b) (source.convert target b) := by
  rw [convert, if_pos (by simpa [isFinite] using hb), value]
  exact scaled_roundsTo _ _

theorem convert_of_infinity (hb : ¬ b < source.infinity) :
    source.convert target b = target.infinity := by
  rw [convert, if_neg (by simpa [isFinite] using hb)]

end Format

end BsonWriter
