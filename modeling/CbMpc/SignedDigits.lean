import Mathlib.Algebra.BigOperators.Intervals
import Mathlib.Data.Nat.Bitwise
import Mathlib.Tactic.Ring

/-!
# Signed digits of overlapping windows

A window of `w + 1` bits shares its lowest bit with the window below. Read with that bit as a carry
and the top bit as a sign, the windows are digits to the base `2 ^ w`, none of which is more than
half of the base.
-/
namespace SignedDigits

/-- `v / 2 ^ i` to the nearest integer. -/
def rounded (v i : ℕ) : ℕ := (2 * v / 2 ^ i + 1) / 2

/-- The bits from `i - 1` to `i + w - 1`, where the bit below the lowest one is zero. -/
def window (w v i : ℕ) : ℕ := 2 * v / 2 ^ i % 2 ^ (w + 1)

/-- What the window at `i` adds to the digits above it. -/
def digit (w v i : ℕ) : ℤ := rounded v i - 2 ^ w * rounded v (i + w)

theorem rounded_zero (v : ℕ) : rounded v 0 = v := by
  unfold rounded
  omega

theorem rounded_eq_zero {v i : ℕ} (h : 2 * v < 2 ^ i) : rounded v i = 0 := by
  rw [rounded, Nat.div_eq_of_lt h]

/-- The top bit of the highest window is not used. -/
theorem two_mul_lt_pow {v bits n : ℕ} (hv : v < 2 ^ bits) (h : bits < n) : 2 * v < 2 ^ n := by
  have hdouble : 2 * v < 2 ^ (bits + 1) := by
    rw [pow_succ']
    exact Nat.mul_lt_mul_of_pos_left hv two_pos
  exact hdouble.trans_le (Nat.pow_le_pow_right two_pos h)

theorem window_lt (w v i : ℕ) : window w v i < 2 ^ (w + 1) := Nat.mod_lt _ (Nat.two_pow_pos _)

theorem rounded_eq (w v i : ℕ) : (rounded v i : ℤ) = 2 ^ w * rounded v (i + w) + digit w v i := by
  rw [digit]
  ring

/-- The digit of a window: the upper half of the windows stands for negative numbers. -/
theorem digit_eq (w v i : ℕ) :
    digit w v i = ((window w v i + 1) / 2 : ℕ) - if 2 ^ w ≤ window w v i then
      2 ^ w else (0 : ℤ) := by
  have hpow : 2 ^ (w + 1) = 2 * 2 ^ w := by rw [pow_succ, mul_comm]
  have hsplit : 2 * v / 2 ^ (i + w) = 2 * v / 2 ^ i / 2 ^ w := by
    rw [pow_add, Nat.div_div_eq_div_mul]
  have hu : 2 * v / 2 ^ i = 2 ^ w * (2 * (2 * v / 2 ^ i / 2 ^ (w + 1))) + window w v i := by
    rw [window, ← mul_assoc, mul_comm (2 ^ w) 2, ← hpow]
    exact (Nat.div_add_mod _ _).symm
  have hlt := window_lt w v i
  rw [digit, rounded, rounded, hsplit]
  generalize 2 * v / 2 ^ i / 2 ^ (w + 1) = a at hu
  generalize window w v i = W at hu hlt
  rw [hu, Nat.mul_add_div (Nat.two_pow_pos w)]
  have hlow : (2 ^ w * (2 * a) + W + 1) / 2 = 2 ^ w * a + (W + 1) / 2 := by
    rw [mul_left_comm, add_assoc, Nat.mul_add_div two_pos]
  rw [hlow]
  split_ifs with hW
  · have hone : W / 2 ^ w = 1 := by
      rw [Nat.div_eq_iff (Nat.two_pow_pos w)]
      omega
    have hhigh : (2 * a + W / 2 ^ w + 1) / 2 = a + 1 := by omega
    rw [hhigh]
    push_cast
    ring
  · have hzero : W / 2 ^ w = 0 := Nat.div_eq_of_lt (not_le.mp hW)
    have hhigh : (2 * a + W / 2 ^ w + 1) / 2 = a := by omega
    rw [hhigh]
    push_cast
    ring

theorem digit_natAbs_le {w : ℕ} (hw : 0 < w) (v i : ℕ) : (digit w v i).natAbs ≤ 2 ^ (w - 1) := by
  have hlt := window_lt w v i
  have hhalf : 2 ^ w = 2 * 2 ^ (w - 1) := by
    rw [← pow_succ', Nat.sub_add_cancel hw]
  rw [digit_eq]
  rw [pow_succ] at hlt
  have hcast : (2 : ℤ) ^ w = ((2 ^ w : ℕ) : ℤ) := by push_cast; rfl
  rw [hcast]
  split_ifs <;> omega

/-- The digits of the lowest `n` windows, and what the windows above stand for. -/
theorem sum_digit (w v n : ℕ) :
    ∑ j ∈ Finset.range n, digit w v (w * j) * 2 ^ (w * j) =
      v - 2 ^ (w * n) * rounded v (w * n) := by
  induction n with
  | zero => simp [rounded_zero]
  | succ n ih =>
    rw [Finset.sum_range_succ, ih, digit, Nat.mul_succ]
    ring

end SignedDigits
