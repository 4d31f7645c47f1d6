import Mathlib.Algebra.BigOperators.GroupWithZero.Finset
import Mathlib.Algebra.Field.Basic
import Mathlib.Data.ZMod.Basic
import Mathlib.GroupTheory.OrderOfElement

/-!
# Products of powers in a group of prime exponent

The elements of a field whose `r`-th power is one have no roots but themselves when `r` is a
prime. An equation between two products of powers that holds under two vectors of exponents
which differ in one place holds in that place.
-/
namespace PrimeOrder

variable {K : Type*} [Field K] {r : ℕ}

theorem ne_zero_of_pow_eq_one (hr : r.Prime) {x : K} (hx : x ^ r = 1) : x ≠ 0 := by
  rintro rfl
  rw [zero_pow hr.ne_zero] at hx
  exact zero_ne_one hx

/-- One has no other root of an exponent that `r` does not divide. -/
theorem eq_one_of_pow_eq_one (hr : r.Prime) {x : K} (hx : x ^ r = 1) {k : ℕ} (hk : ¬r ∣ k)
    (h : x ^ k = 1) : x = 1 := by
  have hcop : Nat.gcd r k = 1 := (Nat.Prime.coprime_iff_not_dvd hr).mpr hk
  have hdvd := Nat.dvd_gcd (orderOf_dvd_of_pow_eq_one hx) (orderOf_dvd_of_pow_eq_one h)
  rw [hcop, Nat.dvd_one] at hdvd
  exact orderOf_eq_one_iff.mp hdvd

/-- Powers by an exponent that `r` does not divide are equal for equal elements only. -/
theorem eq_of_pow_eq (hr : r.Prime) {x y : K} (hx : x ^ r = 1) (hy : y ^ r = 1) {k : ℕ}
    (hk : ¬r ∣ k) (h : x ^ k = y ^ k) :
    x = y := by
  have hy0 := ne_zero_of_pow_eq_one hr hy
  have hr' : (x / y) ^ r = 1 := by rw [div_pow, hx, hy, div_one]
  have hk' : (x / y) ^ k = 1 := by rw [div_pow, h, div_self (pow_ne_zero k hy0)]
  exact (div_eq_one_iff_eq hy0).mp (eq_one_of_pow_eq_one hr hr' hk hk')

theorem eq_of_zpow_eq (hr : r.Prime) {x y : K} (hx : x ^ r = 1) (hy : y ^ r = 1)
    {k : ℤ} (hk : ¬(r : ℤ) ∣ k) (h : x ^ k = y ^ k) : x = y := by
  rcases Int.natAbs_eq k with hcast | hcast
  · rw [hcast, zpow_natCast, zpow_natCast] at h
    exact eq_of_pow_eq hr hx hy (fun hd => hk (Int.natCast_dvd.mpr hd)) h
  · rw [hcast, zpow_neg, zpow_neg, inv_inj, zpow_natCast, zpow_natCast] at h
    exact eq_of_pow_eq hr hx hy (fun hd => hk (Int.natCast_dvd.mpr hd)) h

/-- Exponents count modulo `r`. -/
theorem pow_emod (hr : r.Prime) {x : K} (hx : x ^ r = 1) (z : ℤ) : x ^ (z % r).toNat = x ^ z := by
  have hpos : (0 : ℤ) < r := Int.natCast_pos.mpr hr.pos
  have hcast : x ^ (z % r).toNat = x ^ (z % r) := by
    rw [← zpow_natCast, Int.toNat_of_nonneg (Int.emod_nonneg z hpos.ne')]
  calc x ^ (z % r).toNat = x ^ (z % r) * (x ^ (r : ℤ)) ^ (z / r) := by
        rw [hcast, zpow_natCast, hx, one_zpow, mul_one]
    _ = x ^ (z % r + r * (z / r)) := by rw [← zpow_mul, ← zpow_add₀ (ne_zero_of_pow_eq_one hr hx)]
    _ = x ^ z := by rw [Int.emod_add_mul_ediv]

theorem zpow_congr (hr : r.Prime) {x : K} (hx : x ^ r = 1) {a b : ℤ}
    (h : (a : ZMod r) = b) : x ^ a = x ^ b := by
  rw [← pow_emod hr hx a, ← pow_emod hr hx b, (ZMod.intCast_eq_intCast_iff' a b r).mp h]

/-- What the two vectors of exponents differ in is the power of one place. -/
theorem prod_pow_eq {ι : Type*} [Fintype ι] [DecidableEq ι] (x : ι → K) {ρ ρ' : ι → ℕ} {j : ι}
    (hoff : ∀ i, i ≠ j → ρ i = ρ' i) (hle : ρ' j ≤ ρ j) :
    ∏ i, x i ^ ρ i = (∏ i, x i ^ ρ' i) * x j ^ (ρ j - ρ' j) := by
  have hsplit : ∀ i, x i ^ ρ i = x i ^ ρ' i * if i = j then x j ^ (ρ j - ρ' j) else 1 := by
    intro i
    by_cases hi : i = j
    · rw [if_pos hi, hi, ← pow_add, Nat.add_sub_cancel' hle]
    · rw [if_neg hi, mul_one, hoff i hi]
  rw [Finset.prod_congr rfl fun i _ => hsplit i, Finset.prod_mul_distrib,
    Finset.prod_ite_eq' Finset.univ j, if_pos (Finset.mem_univ j)]

/-- Two accepted combinations of the rows, with exponents that differ in the row `j` only. -/
theorem row_of_prod_pow {ι : Type*} [Fintype ι] [DecidableEq ι] {x y : ι → K}
    (hy : ∀ i, y i ≠ 0) {ρ ρ' : ι → ℕ} {j : ι} (hoff : ∀ i, i ≠ j → ρ i = ρ' i) (hle : ρ' j ≤ ρ j)
    (h : ∏ i, x i ^ ρ i = ∏ i, y i ^ ρ i) (h' : ∏ i, x i ^ ρ' i = ∏ i, y i ^ ρ' i) :
    x j ^ (ρ j - ρ' j) = y j ^ (ρ j - ρ' j) := by
  rw [prod_pow_eq x hoff hle, prod_pow_eq y hoff hle, h'] at h
  exact mul_left_cancel₀ (Finset.prod_ne_zero_iff.mpr fun i _ => pow_ne_zero _ (hy i)) h

end PrimeOrder
