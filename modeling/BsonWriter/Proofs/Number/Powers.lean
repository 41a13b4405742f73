import BsonWriter.Proofs.Number.Doubles
import Mathlib.Algebra.Order.Ring.Pow

/-!
Powers in doubles. Each of the products of a power loses a little, which is counted along the
bits of the exponent (`Format.powerFrom_atLeast`), so a power falls short of the exact one by
no more than its exponent times the error of one product (`Format.power_ten_atLeast`).
-/

namespace BsonWriter.Format

variable {a b base square product : Nat} {i j : Nat} {x y : ℚ}

/-- Infinity, or a value no less than `x` less the errors of `j` products. -/
def AtLeast (j : Nat) (x : ℚ) (b : Nat) : Prop :=
  b = double.infinity ∨
    b < double.infinity ∧ 1 ≤ double.value b ∧ x * (1 - 1 / 2 ^ 52) ^ j ≤ double.value b

/-- One rounding of what is not tiny. -/
theorem RoundsTo.atLeast {t : ℚ} (h : double.RoundsTo t b) (ht : 1 ≤ t) :
    b = double.infinity ∨ b < double.infinity ∧ 1 ≤ double.value b ∧
      t * (1 - 1 / 2 ^ 52) ≤ double.value b := by
  rcases h.le_infinity.eq_or_lt with hinfinite | hfinite
  · exact .inl hinfinite
  · obtain ⟨hround, -, hone⟩ := round_exact (n := 1) (by decide)
    rw [Nat.cast_one] at hone hround
    have hmono := double.value_strictMono.monotone (hround.mono h ht)
    rw [hone] at hmono
    have hnear := h.abs_double_sub_le (by linarith) (h.finite_iff.mp hfinite)
    rw [abs_le] at hnear
    exact .inr ⟨hfinite, hmono, by linarith [half_least_le]⟩

theorem AtLeast.mul (ha : AtLeast i x a) (hb : AtLeast j y b) (hy : 0 ≤ y) :
    AtLeast (i + j + 1) (x * y) (double.mul a b) := by
  rcases ha with rfl | ⟨hfa, ha₁, ha⟩
  · exact .inl (mul_eq_infinity fun h => Nat.lt_irrefl _ h.1)
  rcases hb with rfl | ⟨hfb, hb₁, hb⟩
  · exact .inl (mul_eq_infinity fun h => Nat.lt_irrefl _ h.2)
  have hproduct : 1 ≤ double.value a * double.value b := one_le_mul_of_one_le_of_one_le ha₁ hb₁
  refine ((mul_roundsTo hfa hfb).atLeast hproduct).imp_right fun ⟨hfinite, hone, hle⟩ =>
    ⟨hfinite, hone, le_trans ?_ hle⟩
  calc x * y * (1 - 1 / 2 ^ 52) ^ (i + j + 1)
      = x * (1 - 1 / 2 ^ 52) ^ i * (y * (1 - 1 / 2 ^ 52) ^ j) * (1 - 1 / 2 ^ 52) := by ring
    _ ≤ double.value a * double.value b * (1 - 1 / 2 ^ 52) := by gcongr

/-- The bits of the exponent count the products. -/
theorem powerFrom_atLeast {steps e : Nat} (he : e < 2 ^ steps) (hx : 0 ≤ x) (hy : 0 ≤ y)
    (hsquare : AtLeast i x square) (hproduct : AtLeast j y product) :
    AtLeast (j + (i + 1) * e) (y * x ^ e) (double.powerFrom steps e square product) := by
  induction steps generalizing e i j x y square product with
  | zero =>
    obtain rfl : e = 0 := by omega
    simpa [powerFrom] using hproduct
  | succ steps ih =>
    have hbits : e = e % 2 + 2 * (e / 2) := (Nat.mod_add_div e 2).symm
    rw [powerFrom]
    -- the lowest bit
    have hnext : AtLeast (j + (i + 1) * (e % 2)) (y * x ^ (e % 2))
        (if e % 2 = 1 then double.mul product square else product) := by
      split
      · rename_i hodd
        rw [hodd, mul_one, pow_one, ← Nat.add_assoc]
        exact hproduct.mul hsquare hx
      · rename_i heven
        rw [show e % 2 = 0 by omega, mul_zero, Nat.add_zero, pow_zero, mul_one]
        exact hproduct
    split
    · rename_i hlast
      have hbit : e % 2 = e := by omega
      rw [hbit] at hnext ⊢
      exact hnext
    · -- and the rest, with the square
      have hrest := ih (e := e / 2) (by rw [Nat.pow_succ] at he; omega) (mul_nonneg hx hx)
        (mul_nonneg hy (pow_nonneg hx _)) (hsquare.mul hsquare hx) hnext
      have hcount : j + (i + 1) * (e % 2) + (i + i + 1 + 1) * (e / 2) = j + (i + 1) * e := by
        conv_rhs => rw [hbits]
        ring
      have hpower : y * x ^ (e % 2) * (x * x) ^ (e / 2) = y * x ^ e := by
        conv_rhs => rw [hbits]
        ring
      rwa [hcount, hpower] at hrest

theorem power_ten_atLeast (k : Nat) : AtLeast k (10 ^ k) (double.power (double.round 10 1) k) := by
  have hexact : ∀ n : Nat, 1 ≤ n → n ≤ 2 ^ 53 → AtLeast 0 n (double.round n 1) := by
    intro n hn hle
    obtain ⟨-, hfinite, hvalue⟩ := round_exact hle
    exact .inr ⟨hfinite, by rw [hvalue]; exact_mod_cast hn, by rw [hvalue, pow_zero, mul_one]⟩
  have hten := hexact 10 (by decide) (by decide)
  have hone := hexact 1 (by decide) (by decide)
  rw [Nat.cast_one] at hone
  rw [Nat.cast_ofNat] at hten
  have h := powerFrom_atLeast (Nat.lt_log2_self (n := k)) (by norm_num) zero_le_one hten hone
  simpa [power] using h

theorem two_pow_lt_ten_pow : (2 : ℚ) ^ 1024 < 10 ^ 309 * (1 / 2) :=
  calc (2 : ℚ) ^ 1024 = 2 * (2 ^ 93) ^ 11 := by rw [← pow_mul, ← pow_succ']
    _ < 2 * (10 ^ 28) ^ 11 := by
      gcongr
      norm_num
    _ = 2 * 10 ^ 308 := by rw [← pow_mul]
    _ ≤ 10 * 10 ^ 308 * (1 / 2) := by
      have hpos : (0 : ℚ) ≤ 10 ^ 308 := by positivity
      generalize (10 : ℚ) ^ 308 = x at hpos ⊢
      linarith
    _ = 10 ^ 309 * (1 / 2) := by rw [← pow_succ']

/-- A power of ten that is in range falls short by no more than nine bits. The exponent is
bounded first, since what many products lose could otherwise pull the power into range. -/
theorem power_ten_lower {k : Nat} (hk : k < 2 ^ 31) :
    double.power (double.round 10 1) k = double.infinity ∨
      double.power (double.round 10 1) k < double.infinity ∧
        10 ^ k * (1 - 1 / 2 ^ 43) ≤ double.value (double.power (double.round 10 1) k) := by
  refine (power_ten_atLeast k).imp_right fun ⟨hfinite, _, hle⟩ => ?_
  have hbernoulli : 1 - k / 2 ^ 52 ≤ (1 - 1 / 2 ^ 52 : ℚ) ^ k := by
    have h := one_add_mul_le_pow (a := (-1 / 2 ^ 52 : ℚ)) (by norm_num) k
    calc (1 - k / 2 ^ 52 : ℚ) = 1 + k * (-1 / 2 ^ 52) := by ring
      _ ≤ (1 + -1 / 2 ^ 52) ^ k := h
      _ = (1 - 1 / 2 ^ 52) ^ k := by norm_num
  have hk' : (k : ℚ) ≤ 2 ^ 31 := by exact_mod_cast hk.le
  have hlt : double.value (double.power (double.round 10 1) k) < 2 ^ 1024 := by
    rw [← value_infinity_double]
    exact double.value_strictMono hfinite
  have hrange : k < 309 := by
    refine Nat.lt_of_not_le fun hge => ?_
    have hpow : (10 : ℚ) ^ 309 ≤ 10 ^ k := pow_le_pow_right₀ (by norm_num) hge
    have hhalf : (1 / 2 : ℚ) ≤ (1 - 1 / 2 ^ 52) ^ k := by linarith
    have hprod : (10 : ℚ) ^ 309 * (1 / 2) ≤ 10 ^ k * (1 - 1 / 2 ^ 52) ^ k := by gcongr
    exact lt_irrefl _ (two_pow_lt_ten_pow.trans_le (hprod.trans (hle.trans hlt.le)))
  refine ⟨hfinite, le_trans ?_ hle⟩
  have hk'' : (k : ℚ) ≤ 309 := by exact_mod_cast hrange.le
  gcongr
  linarith

end BsonWriter.Format
