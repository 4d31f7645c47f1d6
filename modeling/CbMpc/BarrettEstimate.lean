import Mathlib.Data.Nat.Basic
import Mathlib.Tactic.Ring
import Mathlib.Tactic.Linarith

/-!
# The quotient estimate of Barrett's reduction

A quotient by `m` is estimated with the leading part `x / B` of the number and the reciprocal
`B * R / m` of the modulus, and is never too large and at most two too small.
-/
namespace BarrettEstimate

/-- The estimate of `x / m`. -/
def quotient (B R m x : ℕ) : ℕ := x / B * (B * R / m) / R

variable {B R m x : ℕ}

theorem quotient_mul_le (hR : 0 < R) : quotient B R m x * m ≤ x := by
  have hq : quotient B R m x * R ≤ x / B * (B * R / m) := Nat.div_mul_le_self _ _
  have hmu : B * R / m * m ≤ B * R := Nat.div_mul_le_self _ _
  have hx : x / B * B ≤ x := Nat.div_mul_le_self _ _
  refine Nat.le_of_mul_le_mul_right ?_ hR
  calc quotient B R m x * m * R = quotient B R m x * R * m := by ring
    _ ≤ x / B * (B * R / m) * m := Nat.mul_le_mul_right m hq
    _ = x / B * (B * R / m * m) := by ring
    _ ≤ x / B * (B * R) := Nat.mul_le_mul_left _ hmu
    _ = x / B * B * R := by ring
    _ ≤ x * R := Nat.mul_le_mul_right R hx

/-- Both roundings together cost less than three multiples of the modulus. -/
theorem lt_quotient_mul (hB : 0 < B) (hR : 0 < R) (hBm : B ≤ m) (hx : x < B * R) :
    x < (quotient B R m x + 3) * m := by
  have hq : x / B * (B * R / m) < (quotient B R m x + 1) * R := by
    have := Nat.lt_mul_div_succ (x / B * (B * R / m)) hR
    rwa [Nat.mul_comm R] at this
  have hmu : B * R ≤ m * (B * R / m + 1) := (Nat.lt_mul_div_succ (B * R) (by omega)).le
  have hx1 : x ≤ B * (x / B + 1) := (Nat.lt_mul_div_succ x hB).le
  have hxR : x / B ≤ R := (Nat.div_lt_iff_lt_mul hB).mpr (by rwa [Nat.mul_comm R]) |>.le
  generalize quotient B R m x = q3 at *
  generalize x / B = q1 at *
  generalize B * R / m = mu at *
  refine Nat.lt_of_mul_lt_mul_right (a := R) ?_
  calc x * R ≤ B * (q1 + 1) * R := Nat.mul_le_mul_right R hx1
    _ = q1 * (B * R) + B * R := by ring
    _ ≤ q1 * (m * (mu + 1)) + m * R :=
      Nat.add_le_add (Nat.mul_le_mul_left _ hmu) (Nat.mul_le_mul_right R hBm)
    _ = q1 * mu * m + q1 * m + m * R := by ring
    _ ≤ q1 * mu * m + R * m + m * R := by
      have := Nat.mul_le_mul_right m hxR
      omega
    _ < (q3 + 1) * R * m + R * m + m * R := by
      have := Nat.mul_lt_mul_of_pos_right hq (by omega : 0 < m)
      omega
    _ = (q3 + 3) * m * R := by ring

/-- When the two roundings cost less than a multiple of the modulus, the estimate is one too small
at most. -/
theorem lt_quotient_two_mul (hB : 0 < B) (hR : 0 < R) (hm : 0 < m)
    (hcost : x / B * m + B * R ≤ m * R) :
    x < (quotient B R m x + 2) * m := by
  have hq : x / B * (B * R / m) < (quotient B R m x + 1) * R := by
    have := Nat.lt_mul_div_succ (x / B * (B * R / m)) hR
    rwa [Nat.mul_comm R] at this
  have hmu : B * R ≤ m * (B * R / m + 1) := (Nat.lt_mul_div_succ (B * R) hm).le
  have hx1 : x ≤ B * (x / B + 1) := (Nat.lt_mul_div_succ x hB).le
  generalize quotient B R m x = q3 at *
  generalize x / B = q1 at *
  generalize B * R / m = mu at *
  refine Nat.lt_of_mul_lt_mul_right (a := R) ?_
  calc x * R ≤ B * (q1 + 1) * R := Nat.mul_le_mul_right R hx1
    _ = q1 * (B * R) + B * R := by ring
    _ ≤ q1 * (m * (mu + 1)) + B * R := Nat.add_le_add_right (Nat.mul_le_mul_left _ hmu) _
    _ = q1 * mu * m + (q1 * m + B * R) := by ring
    _ ≤ q1 * mu * m + m * R := Nat.add_le_add_left hcost _
    _ < (q3 + 1) * R * m + m * R := Nat.add_lt_add_right (Nat.mul_lt_mul_of_pos_right hq hm) _
    _ = (q3 + 2) * m * R := by ring

/-- What the estimate leaves over, in terms of the remainder. -/
theorem sub_quotient_mul (hB : 0 < B) (hR : 0 < R) (hBm : B ≤ m) (hx : x < B * R) :
    quotient B R m x ≤ x / m ∧ x / m ≤ quotient B R m x + 2 ∧
      x - quotient B R m x * m = x % m + (x / m - quotient B R m x) * m := by
  have hm : 0 < m := by omega
  have hle : quotient B R m x ≤ x / m := (Nat.le_div_iff_mul_le hm).mpr (quotient_mul_le hR)
  have hlt : x / m < quotient B R m x + 3 :=
    (Nat.div_lt_iff_lt_mul hm).mpr (lt_quotient_mul hB hR hBm hx)
  refine ⟨hle, by omega, ?_⟩
  have hdiv := Nat.div_add_mod x m
  have hmul := Nat.mul_le_mul_right m hle
  rw [Nat.sub_mul, Nat.mul_comm (x / m)] at *
  omega

/-- The estimate is two too small when the product misses the multiple it should reach. -/
theorem two_le_sub_quotient (hR : 0 < R) :
    2 ≤ x / m - quotient B R m x ↔ x / B * (B * R / m) < (x / m - 1) * R := by
  rw [← Nat.div_lt_iff_lt_mul hR, ← quotient]
  omega

end BarrettEstimate
