import Mathlib.Data.ZMod.Basic
import Mathlib.Data.Nat.Prime.Basic
import Mathlib.Logic.Function.Iterate
import Mathlib.Tactic.Ring
import Mathlib.Tactic.LinearCombination

/-!
# Inverses by halving

A greatest common divisor is found by subtracting and halving, and each of the two numbers
carries a cofactor of the input modulo `m`. Every step halves the product of the two numbers,
so the number of steps is bounded by the lengths alone.
-/
namespace BinaryInverse

/-- The two numbers and their cofactors. -/
structure State where
  a : ℕ
  b : ℕ
  u : ℕ
  v : ℕ
  deriving DecidableEq, Repr

/-- A difference of residues modulo `m`. -/
def subMod (m x y : ℕ) : ℕ := if x < y then x + m - y else x - y

/-- Half of a residue, where `h` is added to the half of an odd one. -/
def halfMod (h x : ℕ) : ℕ := if x % 2 = 1 then x / 2 + h else x / 2

def step (m h : ℕ) (s : State) : State :=
  if s.a % 2 = 1 then
    if s.a < s.b then ⟨(s.b - s.a) / 2, s.a, halfMod h (subMod m s.v s.u), s.u⟩
    else ⟨(s.a - s.b) / 2, s.b, halfMod h (subMod m s.u s.v), s.v⟩
  else ⟨s.a / 2, s.b, halfMod h s.u, s.v⟩

def start (m x : ℕ) : State := ⟨x, m, 1, 0⟩

/-- Half of the modulus, rounded up: what an odd residue takes to be halved. -/
def halfUp (m : ℕ) : ℕ := m / 2 + 1

/-- The numbers are the cofactors' multiples of `x`, everything is reduced, and the greatest
common divisor is the one of the input. -/
structure Invariant (m x : ℕ) (s : State) : Prop where
  a_lt : s.a < m
  b_le : s.b ≤ m
  u_lt : s.u < m
  v_lt : s.v < m
  odd_b : s.b % 2 = 1
  a_eq : (s.a : ZMod m) = s.u * x
  b_eq : (s.b : ZMod m) = s.v * x
  gcd_eq : Nat.gcd s.a s.b = Nat.gcd x m

variable {m : ℕ}

theorem subMod_lt {x y : ℕ} (hx : x < m) (hy : y < m) : subMod m x y < m := by
  unfold subMod
  split <;> omega

theorem cast_subMod {x y : ℕ} (hy : y < m) : (subMod m x y : ZMod m) = x - y := by
  unfold subMod
  split
  · rw [Nat.cast_sub (by omega), Nat.cast_add, ZMod.natCast_self, add_zero]
  · rw [Nat.cast_sub (by omega)]

theorem halfMod_lt (hm : m % 2 = 1) {x : ℕ} (hx : x < m) : halfMod (halfUp m) x < m := by
  unfold halfMod halfUp
  split <;> omega

theorem two_mul_halfMod (hm : m % 2 = 1) (x : ℕ) : (2 * halfMod (halfUp m) x : ZMod m) = x := by
  unfold halfMod halfUp
  split
  case isTrue h =>
    have hsum : 2 * (x / 2 + (m / 2 + 1)) = x + m := by omega
    have hcast := congrArg (Nat.cast : ℕ → ZMod m) hsum
    push_cast at hcast ⊢
    rw [hcast, ZMod.natCast_self, add_zero]
  case isFalse h =>
    have hdouble : 2 * (x / 2) = x := by omega
    have hcast := congrArg (Nat.cast : ℕ → ZMod m) hdouble
    push_cast at hcast ⊢
    exact hcast

/-- Two may be cancelled modulo an odd number. -/
theorem two_mul_cancel (hm : m % 2 = 1) {x y : ZMod m} (h : 2 * x = 2 * y) : x = y := by
  have hunit : IsUnit ((2 : ℕ) : ZMod m) :=
    (ZMod.isUnit_iff_coprime 2 m).mpr (Nat.coprime_two_left.mpr (Nat.odd_iff.mpr hm))
  exact hunit.mul_left_cancel (by exact_mod_cast h)

/-- Halving an even number keeps the greatest common divisor with an odd one. -/
theorem gcd_half {a b : ℕ} (ha : a % 2 = 0) (hb : b % 2 = 1) : Nat.gcd (a / 2) b = Nat.gcd a b := by
  have hcop : Nat.Coprime 2 b := Nat.coprime_two_left.mpr (Nat.odd_iff.mpr hb)
  conv_rhs => rw [← Nat.mul_div_cancel' (Nat.dvd_of_mod_eq_zero ha)]
  exact (hcop.gcd_mul_left_cancel (a / 2)).symm

theorem start_invariant {x : ℕ} (hm : m % 2 = 1) (h1 : 1 < m) (hx : x < m) :
    Invariant m x (start m x) where
  a_lt := hx
  b_le := le_rfl
  u_lt := h1
  v_lt := by simp only [start]; omega
  odd_b := hm
  a_eq := by simp [start]
  b_eq := by simp [start]
  gcd_eq := rfl

/-- Half of a difference goes with half of the difference of the cofactors. -/
theorem half_sub_eq {x a b u v : ℕ} (hm : m % 2 = 1) (ha : a % 2 = 1) (hb : b % 2 = 1)
    (hle : b ≤ a) (hv : v < m) (hau : (a : ZMod m) = u * x) (hbv : (b : ZMod m) = v * x) :
    (((a - b) / 2 : ℕ) : ZMod m) = halfMod (halfUp m) (subMod m u v) * x := by
  apply two_mul_cancel hm
  have hdouble : 2 * ((a - b) / 2) = a - b := by omega
  have hcast := congrArg (Nat.cast : ℕ → ZMod m) hdouble
  rw [Nat.cast_mul, Nat.cast_sub hle, Nat.cast_two, hau, hbv] at hcast
  have hhalf := two_mul_halfMod hm (subMod m u v)
  rw [cast_subMod hv] at hhalf
  linear_combination hcast - x * hhalf

theorem step_invariant {x : ℕ} (hm : m % 2 = 1) {s : State} (hs : Invariant m x s) :
    Invariant m x (step m (halfUp m) s) := by
  obtain ⟨ha, hb, hu, hv, hodd, hau, hbv, hgcd⟩ := hs
  unfold step
  by_cases hao : s.a % 2 = 1
  · rw [if_pos hao]
    by_cases hlt : s.a < s.b
    · rw [if_pos hlt]
      refine ⟨by simp only; omega, ha.le, halfMod_lt hm (subMod_lt hv hu), hu, hao,
        half_sub_eq hm hodd hao hlt.le hu hbv hau, hau, ?_⟩
      rw [gcd_half (by omega) hao, Nat.gcd_sub_self_left hlt.le, Nat.gcd_comm, hgcd]
    · rw [if_neg hlt]
      refine ⟨by simp only; omega, hb, halfMod_lt hm (subMod_lt hu hv), hv, hodd,
        half_sub_eq hm hao hodd (by omega) hv hau hbv, hbv, ?_⟩
      rw [gcd_half (by omega) hodd, Nat.gcd_sub_self_left (by omega), hgcd]
  · rw [if_neg hao]
    refine ⟨by simp only; omega, hb, halfMod_lt hm hu, hv, hodd, ?_, hbv, ?_⟩
    · apply two_mul_cancel hm
      have hdouble : 2 * (s.a / 2) = s.a := by omega
      have hcast := congrArg (Nat.cast : ℕ → ZMod m) hdouble
      rw [Nat.cast_mul, Nat.cast_two, hau] at hcast
      linear_combination hcast - x * two_mul_halfMod hm s.u
    · rw [gcd_half (by omega) hodd, hgcd]

/-- A step halves the product of the two numbers, whatever its constants are. -/
theorem step_product (m h : ℕ) (s : State) : 2 * ((step m h s).a * (step m h s).b) ≤ s.a * s.b := by
  unfold step
  by_cases hao : s.a % 2 = 1
  · rw [if_pos hao]
    by_cases hlt : s.a < s.b
    · have hle : 2 * ((s.b - s.a) / 2) ≤ s.b := by omega
      rw [if_pos hlt, ← Nat.mul_assoc, Nat.mul_comm s.a]
      exact Nat.mul_le_mul_right s.a hle
    · have hle : 2 * ((s.a - s.b) / 2) ≤ s.a := by omega
      rw [if_neg hlt, ← Nat.mul_assoc]
      exact Nat.mul_le_mul_right s.b hle
  · have hle : 2 * (s.a / 2) ≤ s.a := by omega
    rw [if_neg hao, ← Nat.mul_assoc]
    exact Nat.mul_le_mul_right s.b hle

theorem iterate_invariant {x : ℕ} (hm : m % 2 = 1) {s : State} (hs : Invariant m x s) (k : ℕ) :
    Invariant m x ((step m (halfUp m))^[k] s) := by
  induction k with
  | zero => exact hs
  | succ k ih =>
    rw [Function.iterate_succ_apply']
    exact step_invariant hm ih

theorem iterate_product (m h : ℕ) (s : State) (k : ℕ) :
    2 ^ k * (((step m h)^[k] s).a * ((step m h)^[k] s).b) ≤ s.a * s.b := by
  induction k with
  | zero => simp
  | succ k ih =>
    rw [Function.iterate_succ_apply', pow_succ, Nat.mul_assoc]
    exact le_trans (Nat.mul_le_mul_left _ (step_product m h _)) ih

/-- After as many steps as the two numbers have bits together, the cofactor of `b` is the
inverse. -/
theorem inverse_of_run {x n : ℕ} (hm : m % 2 = 1) (h1 : 1 < m) (hx : x < m)
    (hcop : Nat.Coprime x m) (hn : m ≤ 2 ^ n) :
    (((step m (halfUp m))^[2 * n] (start m x)).v : ZMod m) * x = 1 := by
  obtain ⟨-, -, -, -, hodd, -, hbv, hgcd⟩ := iterate_invariant hm (start_invariant hm h1 hx) (2 * n)
  have hprod := iterate_product m (halfUp m) (start m x) (2 * n)
  have hlt : x * m < 2 ^ (2 * n) := by
    rw [Nat.two_mul, pow_add]
    exact Nat.mul_lt_mul_of_lt_of_le (lt_of_lt_of_le hx hn) hn (by omega)
  generalize (step m (halfUp m))^[2 * n] (start m x) = s at *
  -- The product of the two numbers is below one, and the second one is odd.
  have hzero : s.a * s.b = 0 := by
    by_contra hne
    have hone : 2 ^ (2 * n) * 1 ≤ 2 ^ (2 * n) * (s.a * s.b) :=
      Nat.mul_le_mul_left _ (Nat.pos_of_ne_zero hne)
    simp only [start] at hprod
    omega
  have ha : s.a = 0 := (Nat.mul_eq_zero.mp hzero).resolve_right (by omega)
  rw [ha, Nat.gcd_zero_left, hcop] at hgcd
  rw [← hbv, hgcd, Nat.cast_one]

end BinaryInverse
