import BsonWriter.Number.Decimal
import Mathlib.Algebra.Order.Ring.Nat

/-!
How much of a long decimal is left. Its digits are estimated from its bits by a fraction that
is a little less than the decimal logarithm of two (`Decimal.exists_logarithm`), which is
checked by squaring front parts of powers of two (`leadingDigits_le`); so the estimate is not
too great (`Decimal.ten_pow_digitEstimate_le`), and of digits that were too many at least
twenty-four remain (`Decimal.shorten_cases`).
-/

namespace BsonWriter

/-- Leading digits of a power of two, and how many digits may follow them, along the bits of
the exponent. -/
def leadingDigits : (steps exponent : Nat) → Nat × Nat
  | 0, _ => (1, 0)
  | steps + 1, e =>
    let (digits, zeros) := leadingDigits steps (e / 2)
    let digits := digits * digits * 2 ^ (e % 2)
    let cut := digits.log2 / 4 - 50
    (digits / 10 ^ cut, 2 * zeros + cut)

theorem leadingDigits_le {steps e : Nat} (h : e < 2 ^ steps) :
    (leadingDigits steps e).1 * 10 ^ (leadingDigits steps e).2 ≤ 2 ^ e := by
  induction steps generalizing e with
  | zero =>
    obtain rfl : e = 0 := by omega
    exact le_rfl
  | succ steps ih =>
    have hhalf := ih (e := e / 2) (by rw [Nat.pow_succ] at h; omega)
    rw [leadingDigits]
    generalize leadingDigits steps (e / 2) = half at hhalf ⊢
    obtain ⟨digits, zeros⟩ := half
    dsimp only at hhalf ⊢
    generalize (digits * digits * 2 ^ (e % 2)).log2 / 4 - 50 = cut
    calc digits * digits * 2 ^ (e % 2) / 10 ^ cut * 10 ^ (2 * zeros + cut)
        = digits * digits * 2 ^ (e % 2) / 10 ^ cut * 10 ^ cut * 10 ^ (2 * zeros) := by
          rw [Nat.pow_add, Nat.mul_comm (10 ^ (2 * zeros)), ← Nat.mul_assoc]
      _ ≤ digits * digits * 2 ^ (e % 2) * 10 ^ (2 * zeros) :=
          Nat.mul_le_mul_right _ (Nat.div_mul_le_self ..)
      _ = digits * 10 ^ zeros * (digits * 10 ^ zeros) * 2 ^ (e % 2) := by
          rw [Nat.two_mul, Nat.pow_add]
          ac_rfl
      _ ≤ 2 ^ (e / 2) * 2 ^ (e / 2) * 2 ^ (e % 2) :=
          Nat.mul_le_mul_right _ (Nat.mul_le_mul hhalf hhalf)
      _ = 2 ^ e := by
          rw [← Nat.pow_add, ← Nat.pow_add]
          congr 1
          omega

theorem ten_pow_le_two_pow {steps p q : Nat} (hq : q < 2 ^ steps)
    (h : 10 ^ (p - (leadingDigits steps q).2) ≤ (leadingDigits steps q).1) :
    10 ^ p ≤ 2 ^ q :=
  calc 10 ^ p ≤ 10 ^ (p - (leadingDigits steps q).2 + (leadingDigits steps q).2) :=
        Nat.pow_le_pow_right (by decide) (by omega)
    _ = 10 ^ (p - (leadingDigits steps q).2) * 10 ^ (leadingDigits steps q).2 := Nat.pow_add ..
    _ ≤ (leadingDigits steps q).1 * 10 ^ (leadingDigits steps q).2 := Nat.mul_le_mul_right _ h
    _ ≤ 2 ^ q := leadingDigits_le hq

namespace Decimal

variable {d : Decimal} {n : Nat}

/-- The estimate multiplies with a fraction that is no greater than the decimal logarithm of
two. -/
theorem exists_logarithm : ∃ p q : Nat, 0 < q ∧ 10 ^ p ≤ 2 ^ q ∧
    ∀ n, digitEstimate n = (n.log2 + 2) * p / q :=
  ⟨30102999566398119521, 100000000000000000000, by decide,
    @ten_pow_le_two_pow 67 _ _ (by decide +kernel) (by decide +kernel), fun _ => rfl⟩

theorem ten_pow_digitEstimate_le (hn : n ≠ 0) : 10 ^ digitEstimate n ≤ 4 * n := by
  obtain ⟨p, q, hq, hlog, hestimate⟩ := exists_logarithm
  have hdigits : digitEstimate n * q ≤ (n.log2 + 2) * p := by
    rw [hestimate]
    exact Nat.div_mul_le_self ..
  have hpow : (10 ^ digitEstimate n) ^ q ≤ (2 ^ (n.log2 + 2)) ^ q :=
    calc (10 ^ digitEstimate n) ^ q = 10 ^ (digitEstimate n * q) := (Nat.pow_mul ..).symm
      _ ≤ 10 ^ ((n.log2 + 2) * p) := Nat.pow_le_pow_right (by decide) hdigits
      _ = (10 ^ p) ^ (n.log2 + 2) := by rw [Nat.mul_comm, Nat.pow_mul]
      _ ≤ (2 ^ q) ^ (n.log2 + 2) := Nat.pow_le_pow_left hlog _
      _ = (2 ^ (n.log2 + 2)) ^ q := by rw [← Nat.pow_mul, ← Nat.pow_mul, Nat.mul_comm]
  calc 10 ^ digitEstimate n ≤ 2 ^ (n.log2 + 2) := (Nat.pow_le_pow_iff_left hq.ne').mp hpow
    _ = 4 * 2 ^ n.log2 := by rw [Nat.pow_add, Nat.mul_comm]
    _ ≤ 4 * n := Nat.mul_le_mul_left 4 (Nat.log2_self_le hn)

/-- A magnitude is kept whole, or cut behind at least twenty-four digits. -/
theorem shorten_cases (hn : d.unscaled ≠ 0) : d.shorten = (d.unscaled.natAbs, d.scale) ∨
    ∃ cut : Nat, d.shorten = (d.unscaled.natAbs / 10 ^ cut, d.scale - cut) ∧
      10 ^ 24 ≤ d.unscaled.natAbs / 10 ^ cut := by
  rw [shorten]
  generalize hblocks : (digitEstimate d.unscaled.natAbs - 25) / 19 = blocks
  rcases Nat.eq_zero_or_pos blocks with rfl | hpos
  · left
    simp
  · refine .inr ⟨19 * blocks, rfl, ?_⟩
    have hestimate := ten_pow_digitEstimate_le (n := d.unscaled.natAbs) (by omega)
    rw [Nat.le_div_iff_mul_le (Nat.pow_pos (by decide)), ← Nat.pow_add]
    have hpow : 10 ^ (24 + 19 * blocks + 1) ≤ 10 ^ digitEstimate d.unscaled.natAbs :=
      Nat.pow_le_pow_right (by decide) (by omega)
    rw [Nat.pow_succ] at hpow
    omega

/-- Short magnitudes are kept whole. -/
theorem shorten_of_lt (hn : d.unscaled.natAbs < 2 ^ 145) :
    d.shorten = (d.unscaled.natAbs, d.scale) := by
  have hlog : d.unscaled.natAbs.log2 < 145 := by
    rcases Nat.eq_zero_or_pos d.unscaled.natAbs with h | h
    · rw [h]
      decide
    · exact (Nat.log2_lt h.ne').mpr hn
  have hestimate : digitEstimate d.unscaled.natAbs < 44 := by
    rw [digitEstimate]
    omega
  rw [shorten, show (digitEstimate d.unscaled.natAbs - 25) / 19 = 0 by omega]
  simp

end Decimal

end BsonWriter
