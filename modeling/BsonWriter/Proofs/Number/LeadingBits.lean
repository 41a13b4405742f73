import BsonWriter.Proofs.Number.Rounding
import Mathlib.Data.Nat.Cast.Order.Field

/-!
Integers are rounded from their first 64 bits (`Format.leadingBits`). The last of these takes
the place of everything behind them, which no boundary can tell from the real thing
(`Format.above_sticky_iff`); so an integer is rounded to the nearest value unless ones of it
are overlooked (`Format.ofNat_roundsTo`), which cannot happen below `2 ^ 128`
(`Format.visible_of_lt`). What is overlooked is small in any case
(`Format.ofNat_near`).
-/

namespace BsonWriter.Format

variable {f : Format} {c n : Nat}

/-- No one among the bits that do not fit is overlooked, or there is none. -/
def Visible (n : Nat) : Prop :=
  2 ^ (n.log2 - 63) ∣ n ∨ anyLowBit (n.log2 % 64 + 1) (n.log2 / 64) n = true

instance (n : Nat) : Decidable (Visible n) := by
  unfold Visible
  infer_instance

theorem or_one (n : Nat) : n ||| 1 = n + (1 - n % 2) := by
  have hdiv : (n ||| 1) / 2 = n / 2 := by simp [Nat.or_div_two]
  have hmod : (n ||| 1) % 2 = 1 := by simp [Nat.or_mod_two_eq_one]
  omega

/-- Nothing is seen where there is nothing. -/
theorem anyLowBit_eq_false {bits words n : Nat}
    (h : 2 ^ (64 * words + bits) ∣ n) : anyLowBit bits (words + 1) n = false := by
  induction words generalizing n with
  | zero =>
    have hmod : n % 2 ^ bits = 0 := Nat.mod_eq_zero_of_dvd (by simpa using h)
    simp [anyLowBit, Nat.one_shiftLeft, hmod]
  | succ words ih =>
    have hlow : n % 2 ^ bits = 0 :=
      Nat.mod_eq_zero_of_dvd ((Nat.pow_dvd_pow 2 (by omega)).trans h)
    have hrest : 2 ^ (64 * words + bits) ∣ n >>> 64 := by
      rw [Nat.shiftRight_eq_div_pow]
      apply Nat.dvd_div_of_mul_dvd
      rwa [← Nat.pow_add, show 64 + (64 * words + bits) = 64 * (words + 1) + bits by omega]
    rw [anyLowBit, Nat.one_shiftLeft, hlow, ih hrest]
    rfl

/-- The first 64 bits, one more if that makes room for what lies behind them. -/
theorem leadingBits_cases (n : Nat) :
    leadingBits n = n >>> (n.log2 - 63) ∧ (Visible n → 2 ^ (n.log2 - 63) ∣ n) ∨
      leadingBits n = (n >>> (n.log2 - 63)) ||| 1 ∧ ¬ 2 ^ (n.log2 - 63) ∣ n := by
  rw [leadingBits]
  split
  · rename_i h
    refine .inr ⟨rfl, fun hdvd => ?_⟩
    rcases Nat.lt_or_ge n.log2 64 with hsmall | hlarge
    · rw [Nat.div_eq_of_lt hsmall] at h
      exact absurd h Bool.false_ne_true
    · rw [show n.log2 / 64 = n.log2 / 64 - 1 + 1 by omega, anyLowBit_eq_false] at h
      · exact absurd h Bool.false_ne_true
      · rwa [show 64 * (n.log2 / 64 - 1) + (n.log2 % 64 + 1) = n.log2 - 63 by omega]
  · rename_i h
    exact .inl ⟨rfl, fun hv => hv.resolve_right h⟩

theorem le_leadingBits (n : Nat) : n >>> (n.log2 - 63) ≤ leadingBits n := by
  have hone := or_one (n >>> (n.log2 - 63))
  rcases leadingBits_cases n with ⟨h, -⟩ | ⟨h, -⟩ <;> rw [h]
  omega

theorem visible_of_lt (h : n < 2 ^ 128) : Visible n := by
  have hlog : n.log2 < 128 := by
    rcases Nat.eq_zero_or_pos n with rfl | hpos
    · decide
    · exact (Nat.log2_lt hpos.ne').mpr h
  rcases Nat.lt_or_ge n.log2 64 with hsmall | hlarge
  · left
    rw [show n.log2 - 63 = 0 by omega]
    exact Nat.one_dvd n
  · rw [Visible, show n.log2 / 64 = 0 + 1 by omega, show n.log2 % 64 + 1 = n.log2 - 63 by omega,
      anyLowBit, anyLowBit, Nat.one_shiftLeft, Nat.dvd_iff_mod_eq_zero]
    simp only [Bool.or_false, bne_iff_ne, ne_eq]
    exact Decidable.em _

/-- A boundary lies below all numbers with a given long front part, or at an even one. -/
theorem midpoint_cases [f.Regular] {lead : Nat} (hlead : 4 * f.step ≤ lead) (t c : Nat) :
    f.midpoint c < lead * 2 ^ t ∨ ∃ j : Nat, f.midpoint c = (2 * j : Nat) * 2 ^ t := by
  obtain ⟨k, q, rfl, hk, hq, -, he⟩ := f.exists_pack c
  rw [midpoint_pack hk hq]
  rcases lt_or_ge (f.leastExponent + k) (t + 2 : Nat) with hlow | hhigh
  · left
    have hlead' : (4 * f.step : ℚ) ≤ lead := by exact_mod_cast hlead
    have hq' : (q + 1 : ℚ) ≤ 2 * f.step := by exact_mod_cast hq
    have hpow : (2 : ℚ) ^ (f.leastExponent + k) ≤ 2 ^ t * 2 := by
      rw [← pow_succ, ← zpow_natCast]
      exact zpow_le_zpow_right₀ one_le_two (by omega)
    calc (q + 1 / 2 : ℚ) * 2 ^ (f.leastExponent + k) ≤ (q + 1 / 2) * (2 ^ t * 2) := by gcongr
      _ < (q + 1) * (2 ^ t * 2) := by
        have : (0 : ℚ) < 2 ^ t := by positivity
        nlinarith
      _ ≤ 2 * f.step * (2 ^ t * 2) := by gcongr
      _ = 4 * f.step * 2 ^ t := by ring
      _ ≤ lead * 2 ^ t := by gcongr
  · right
    obtain ⟨i, hi⟩ := Int.le.dest hhigh
    refine ⟨(2 * q + 1) * 2 ^ i, ?_⟩
    rw [← hi, zpow_add₀ two_ne_zero, zpow_natCast, zpow_natCast]
    push_cast
    ring

/-- Where a one has taken the place of what lies behind a long front part, no boundary tells
the difference. -/
theorem above_sticky_iff [f.Regular] {lead t : Nat} (hlead : 4 * f.step ≤ lead)
    (hlo : lead * 2 ^ t < n) (hhi : n < (lead + 1) * 2 ^ t) :
    f.Above c ((lead ||| 1 : Nat) * 2 ^ t) ↔ f.Above c n := by
  have hlo' : (lead * 2 ^ t : ℚ) < n := by exact_mod_cast hlo
  have hhi' : (n : ℚ) < (lead + 1) * 2 ^ t := by exact_mod_cast hhi
  have hpow : (0 : ℚ) < 2 ^ t := by positivity
  have hge : (lead : ℚ) ≤ (lead ||| 1 : Nat) := by
    rw [or_one]
    push_cast
    linarith [(Nat.cast_nonneg (1 - lead % 2) : (0 : ℚ) ≤ _)]
  have hodd : (lead ||| 1) % 2 = 1 := by simp [Nat.or_mod_two_eq_one]
  have hbound := or_one lead
  rcases midpoint_cases hlead t c with hbelow | ⟨j, hj⟩
  · exact iff_of_true (.inl (hbelow.trans_le (by gcongr))) (.inl (hbelow.trans hlo'))
  · rcases Nat.lt_or_ge (lead ||| 1) (2 * j) with hgt | hle
    · -- the boundary is the next even front part or a greater one
      have hnext : (lead + 1 : ℚ) ≤ (2 * j : Nat) := by
        exact_mod_cast (show lead + 1 ≤ 2 * j by omega)
      have hgt' : ((lead ||| 1 : Nat) : ℚ) < (2 * j : Nat) := by exact_mod_cast hgt
      refine iff_of_false (fun h => ?_) (fun h => ?_)
      · have hle := h.le
        rw [hj] at hle
        exact absurd (lt_of_lt_of_le (by gcongr) hle) (lt_irrefl _)
      · have hle := h.le
        rw [hj] at hle
        exact absurd ((hhi'.trans_le (by gcongr)).trans_le hle) (lt_irrefl _)
    · have hle' : ((2 * j : Nat) : ℚ) ≤ lead := by exact_mod_cast (show 2 * j ≤ lead by omega)
      have hlt' : ((2 * j : Nat) : ℚ) < (lead ||| 1 : Nat) := by
        exact_mod_cast (show 2 * j < lead ||| 1 by omega)
      refine iff_of_true (.inl ?_) (.inl ?_) <;> rw [hj]
      · gcongr
      · exact lt_of_le_of_lt (by gcongr) hlo'

/-- An integer is rounded by its leading bits. -/
theorem ofNat_roundsTo_leadingBits [f.Regular] (n : Nat) :
    f.RoundsTo (leadingBits n * 2 ^ (n.log2 - 63) : Nat) (f.ofNat n) := by
  have hround := round_roundsTo (f := f) (leadingBits n <<< (n.log2 - 63)) Nat.one_pos
  rwa [← ofNat, Nat.cast_one, div_one, Nat.shiftLeft_eq] at hround

/-- An integer of which all is seen is rounded to the nearest value. -/
theorem ofNat_roundsTo [f.Regular] (hf : 4 * f.step ≤ 2 ^ 63) (h : Visible n) :
    f.RoundsTo n (f.ofNat n) := by
  have hround := ofNat_roundsTo_leadingBits (f := f) n
  rcases leadingBits_cases n with ⟨hlead, hdvd⟩ | ⟨hlead, hdvd⟩
  · rwa [hlead, Nat.shiftRight_eq_div_pow, Nat.div_mul_cancel (hdvd h)] at hround
  · have hlarge : 64 ≤ n.log2 := by
      refine Nat.le_of_not_lt fun hsmall => hdvd ?_
      rw [show n.log2 - 63 = 0 by omega]
      exact Nat.one_dvd n
    have hpos : n ≠ 0 := by
      rintro rfl
      exact hdvd (Nat.dvd_zero _)
    rw [hlead, Nat.shiftRight_eq_div_pow] at hround
    push_cast at hround
    refine ⟨hround.le_infinity, fun c hc => ?_⟩
    rw [hround.lt_iff c hc]
    have hmod : 0 < n % 2 ^ (n.log2 - 63) :=
      Nat.pos_of_ne_zero fun h0 => hdvd (Nat.dvd_of_mod_eq_zero h0)
    have hsum := Nat.div_add_mod' n (2 ^ (n.log2 - 63))
    have hlt := Nat.mod_lt n (Nat.two_pow_pos (n.log2 - 63))
    refine above_sticky_iff (hf.trans ?_) (by omega) (by rw [Nat.add_mul]; omega)
    rw [Nat.le_div_iff_mul_le (Nat.two_pow_pos _), ← Nat.pow_add,
      show 63 + (n.log2 - 63) = n.log2 by omega]
    exact Nat.log2_self_le hpos

/-- Whatever is overlooked, an integer is rounded from a number that is nearly the same. -/
theorem ofNat_near [f.Regular] (n : Nat) :
    ∃ x : ℚ, n * (1 - 1 / 2 ^ 63) ≤ x ∧ f.RoundsTo x (f.ofNat n) := by
  have hround := ofNat_roundsTo_leadingBits (f := f) n
  have hlead := Nat.mul_le_mul_right (2 ^ (n.log2 - 63)) (le_leadingBits n)
  rw [Nat.shiftRight_eq_div_pow] at hlead
  have hsum := Nat.lt_div_mul_add (a := n) (Nat.two_pow_pos (n.log2 - 63))
  generalize leadingBits n * 2 ^ (n.log2 - 63) = x at hround hlead
  refine ⟨x, ?_, hround⟩
  have hcut : (n : ℚ) - x ≤ n / 2 ^ 63 := by
    rcases Nat.lt_or_ge n.log2 64 with hsmall | hlarge
    · rw [show n.log2 - 63 = 0 by omega] at hsum hlead
      have hle : (n : ℚ) ≤ x := by exact_mod_cast (show n ≤ x by omega)
      have hnonneg : (0 : ℚ) ≤ n / 2 ^ 63 := by positivity
      linarith
    · have hlt : (n : ℚ) < x + 2 ^ (n.log2 - 63) := by
        exact_mod_cast (show n < x + 2 ^ (n.log2 - 63) by omega)
      have hself : 2 ^ (n.log2 - 63) * 2 ^ 63 ≤ n := by
        rw [← Nat.pow_add, show n.log2 - 63 + 63 = n.log2 by omega]
        exact Nat.log2_self_le (by rintro rfl; simp at hlarge)
      have hself' : (2 : ℚ) ^ (n.log2 - 63) * 2 ^ 63 ≤ n := by exact_mod_cast hself
      have hunit : (2 : ℚ) ^ (n.log2 - 63) ≤ n / 2 ^ 63 := (le_div_iff₀ (by positivity)).mpr hself'
      linarith
  linarith

end BsonWriter.Format
