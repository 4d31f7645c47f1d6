import Mathlib.FieldTheory.Finite.Basic
import Mathlib.Tactic.FieldSimp
import Mathlib.Tactic.LinearCombination

/-!
# Twisted Edwards curves with `a = -1`

The curve `-x^2 + y^2 = 1 + d * x^2 * y^2` over a finite field in which `-1` is a square and `d` is
not. There no denominator of the addition law vanishes, so one formula adds all pairs of points.
-/
namespace Edwards

variable {K : Type*} [Field K]

/-- What makes the addition law complete. -/
class Complete (d : K) : Prop where
  nonsquare : ¬IsSquare d
  neg_one : IsSquare (-1 : K)

/-- A point of the curve. -/
@[ext] structure Point (d : K) where
  x : K
  y : K
  onCurve : -x ^ 2 + y ^ 2 = 1 + d * x ^ 2 * y ^ 2

variable {d : K}

/-- In characteristic two everything is a square. -/
theorem Complete.two_ne_zero [Finite K] [hd : Complete d] : (2 : K) ≠ 0 := by
  intro htwo
  have hchar : ringChar K = 2 := CharP.ringChar_of_prime_eq_zero Nat.prime_two htwo
  exact hd.nonsquare (FiniteField.isSquare_of_char_two hchar d)

theorem Complete.ne_zero [hd : Complete d] : d ≠ 0 := by
  rintro rfl
  exact hd.nonsquare IsSquare.zero

/-- No value of `y` makes `x ^ 2` a quotient by zero. -/
theorem Complete.mul_sq_add_one_ne_zero [hd : Complete d] (y : K) : d * y ^ 2 + 1 ≠ 0 := by
  intro h
  obtain ⟨i, hi⟩ := hd.neg_one
  have hy : y ≠ 0 := by
    rintro rfl
    rw [zero_pow (by decide), mul_zero, zero_add] at h
    exact one_ne_zero h
  apply hd.nonsquare
  refine ⟨i / y, ?_⟩
  field_simp
  linear_combination h + hi

namespace Point

def zero : Point d := ⟨0, 1, by ring⟩

def neg (P : Point d) : Point d := ⟨-P.x, P.y, by linear_combination P.onCurve⟩

/-- The product that stands in the denominators of a sum. -/
def cross (P Q : Point d) : K := d * P.x * Q.x * P.y * Q.y

/-- A cross product whose square is one would make `d` a square. -/
theorem cross_sq_ne_one [Finite K] [hd : Complete d] (P Q : Point d) : P.cross Q ^ 2 ≠ 1 := by
  intro hone
  obtain ⟨i, hi⟩ := hd.neg_one
  have hP := P.onCurve
  have hQ := Q.onCurve
  have hcross : P.cross Q = d * P.x * Q.x * P.y * Q.y := rfl
  -- both roots of `x^2 * y^2` in `Q` give a square root of `d`
  have hroot : ∀ j : K, j ^ 2 = -1 →
      (j * P.x + P.cross Q * P.y) ^ 2 = d * (P.x * P.y * (j * Q.x + Q.y)) ^ 2 := by
    intro j hj
    have hcurve : d * (P.x * P.y) ^ 2 * (-Q.x ^ 2 + Q.y ^ 2) =
        d * P.x ^ 2 * P.y ^ 2 + P.cross Q ^ 2 := by
      rw [hQ, hcross]
      ring
    rw [hone] at hcurve
    linear_combination (P.x ^ 2 - d * (P.x * P.y) ^ 2 * Q.x ^ 2) * hj +
      P.y ^ 2 * hone + hP - hcurve +
      2 * j * P.x * P.y * hcross
  have hzero : ∀ j : K, j ^ 2 = -1 → P.x * P.y * (j * Q.x + Q.y) = 0 := by
    intro j hj
    by_contra hne
    apply hd.nonsquare
    refine ⟨(j * P.x + P.cross Q * P.y) / (P.x * P.y * (j * Q.x + Q.y)), ?_⟩
    rw [← sq, div_pow, eq_div_iff (pow_ne_zero 2 hne)]
    exact (hroot j hj).symm
  have hplus := hzero i (by rw [sq, hi])
  have hminus := hzero (-i) (by rw [neg_sq, sq, hi])
  have hy : P.x * P.y * Q.y = 0 := by
    have htwo : 2 * (P.x * P.y * Q.y) = 0 := by linear_combination hplus + hminus
    exact (mul_eq_zero.mp htwo).resolve_left (hd.two_ne_zero)
  have hcross0 : P.cross Q = 0 := by
    rw [hcross]
    linear_combination d * Q.x * hy
  rw [hcross0] at hone
  norm_num at hone

theorem one_add_cross_ne_zero [Finite K] [Complete d] (P Q : Point d) : 1 + P.cross Q ≠ 0 := by
  intro h
  apply P.cross_sq_ne_one Q
  linear_combination (P.cross Q - 1) * h

theorem one_sub_cross_ne_zero [Finite K] [Complete d] (P Q : Point d) : 1 - P.cross Q ≠ 0 := by
  intro h
  apply P.cross_sq_ne_one Q
  linear_combination -(P.cross Q + 1) * h

theorem div_onCurve {X Y a b : K} (ha : a ≠ 0) (hb : b ≠ 0)
    (h : -(X * b) ^ 2 + (Y * a) ^ 2 = (a * b) ^ 2 + d * X ^ 2 * Y ^ 2) :
    -(X / a) ^ 2 + (Y / b) ^ 2 = 1 + d * (X / a) ^ 2 * (Y / b) ^ 2 := by
  field_simp
  linear_combination h

theorem sum_onCurve [Finite K] [Complete d] (P Q : Point d) :
    -((P.x * Q.y + P.y * Q.x) / (1 + P.cross Q)) ^ 2 +
      ((P.y * Q.y + P.x * Q.x) / (1 - P.cross Q)) ^ 2 =
      1 + d * ((P.x * Q.y + P.y * Q.x) / (1 + P.cross Q)) ^ 2 *
        ((P.y * Q.y + P.x * Q.x) / (1 - P.cross Q)) ^ 2 := by
  apply div_onCurve (one_add_cross_ne_zero P Q) (one_sub_cross_ne_zero P Q)
  obtain ⟨x₁, y₁, h₁⟩ := P
  obtain ⟨x₂, y₂, h₂⟩ := Q
  simp only [cross]
  linear_combination (d ^ 3 * x₁ ^ 2 * y₁ ^ 2 * x₂ ^ 4 * y₂ ^ 4 - d ^ 2 * x₁ ^ 2 * x₂ ^ 4 * y₂ ^ 4
      + d ^ 2 * y₁ ^ 2 * x₂ ^ 4 * y₂ ^ 4 - d ^ 2 * x₂ ^ 4 * y₂ ^ 4 - d * x₁ ^ 2 * x₂ ^ 4 * y₂ ^ 2
      + d * x₁ ^ 2 * x₂ ^ 2 * y₂ ^ 4 + d * y₁ ^ 2 * x₂ ^ 4 * y₂ ^ 2 - d * y₁ ^ 2 * x₂ ^ 2 * y₂ ^ 4
      - 2 * d * x₂ ^ 4 * y₂ ^ 4 - 2 * d * x₂ ^ 2 * y₂ ^ 2 - 2 * x₂ ^ 4 * y₂ ^ 2 +
        x₂ ^ 4 + 2 * x₂ ^ 2 * y₂ ^ 4
      - 4 * x₂ ^ 2 * y₂ ^ 2 + y₂ ^ 4) * h₁ +
    (d * x₁ ^ 4 * x₂ ^ 2 * y₂ ^ 2 + 2 * d * x₁ ^ 2 * x₂ ^ 2 * y₂ ^ 2 + d * y₁ ^ 4 * x₂ ^ 2 * y₂ ^ 2
      - 2 * d * y₁ ^ 2 * x₂ ^ 2 * y₂ ^ 2 + d * x₂ ^ 2 * y₂ ^ 2 + 2 * x₁ ^ 2 * x₂ ^ 2 *
        y₂ ^ 2 - x₁ ^ 2 * x₂ ^ 2
      + x₁ ^ 2 * y₂ ^ 2 - 2 * y₁ ^ 2 * x₂ ^ 2 * y₂ ^ 2 + y₁ ^ 2 * x₂ ^ 2 - y₁ ^ 2 *
        y₂ ^ 2 + 2 * x₂ ^ 2 * y₂ ^ 2
      - x₂ ^ 2 + y₂ ^ 2 + 1) * h₂

/-- The Edwards sum. -/
def add [Finite K] [Complete d] (P Q : Point d) : Point d where
  x := (P.x * Q.y + P.y * Q.x) / (1 + P.cross Q)
  y := (P.y * Q.y + P.x * Q.x) / (1 - P.cross Q)
  onCurve := sum_onCurve P Q

theorem cross_comm (P Q : Point d) : P.cross Q = Q.cross P := by
  simp only [cross]
  ring

variable [Finite K] [Complete d]

theorem zero_add (P : Point d) : zero.add P = P := by
  apply Point.ext
  · show (zero.x * P.y + zero.y * P.x) / (1 + zero.cross P) = P.x
    simp [zero, cross]
  · show (zero.y * P.y + zero.x * P.x) / (1 - zero.cross P) = P.y
    simp [zero, cross]

theorem add_comm (P Q : Point d) : P.add Q = Q.add P := by
  apply Point.ext
  · show (P.x * Q.y + P.y * Q.x) / (1 + P.cross Q) = (Q.x * P.y + Q.y * P.x) / (1 + Q.cross P)
    rw [cross_comm]
    ring
  · show (P.y * Q.y + P.x * Q.x) / (1 - P.cross Q) = (Q.y * P.y + Q.x * P.x) / (1 - Q.cross P)
    rw [cross_comm]
    ring

/-- The x-coordinate of a sum of three points over one denominator. -/
theorem add_add_x (P Q R : Point d) :
    ((P.add Q).add R).x = ((P.x * Q.y + P.y * Q.x) * R.y * (1 - P.cross Q) +
      (P.y * Q.y + P.x * Q.x) * R.x * (1 + P.cross Q)) /
      ((1 + P.cross Q) * (1 - P.cross Q) + d * (P.x * Q.y + P.y * Q.x) *
        (P.y * Q.y + P.x * Q.x) * R.x * R.y) := by
  have ha := P.one_add_cross_ne_zero Q
  have hb := P.one_sub_cross_ne_zero Q
  show ((P.x * Q.y + P.y * Q.x) / (1 + P.cross Q) * R.y + (P.y * Q.y + P.x * Q.x) /
    (1 - P.cross Q) * R.x) /
    (1 + d * ((P.x * Q.y + P.y * Q.x) / (1 + P.cross Q)) * R.x *
      ((P.y * Q.y + P.x * Q.x) / (1 - P.cross Q)) * R.y) = _
  generalize 1 + P.cross Q = a at ha ⊢
  generalize 1 - P.cross Q = b at hb ⊢
  field_simp

/-- The y-coordinate of a sum of three points over one denominator. -/
theorem add_add_y (P Q R : Point d) :
    ((P.add Q).add R).y = ((P.y * Q.y + P.x * Q.x) * R.y * (1 + P.cross Q) +
      (P.x * Q.y + P.y * Q.x) * R.x * (1 - P.cross Q)) /
      ((1 + P.cross Q) * (1 - P.cross Q) - d * (P.x * Q.y + P.y * Q.x) *
        (P.y * Q.y + P.x * Q.x) * R.x * R.y) := by
  have ha := P.one_add_cross_ne_zero Q
  have hb := P.one_sub_cross_ne_zero Q
  show ((P.y * Q.y + P.x * Q.x) / (1 - P.cross Q) * R.y + (P.x * Q.y + P.y * Q.x) /
    (1 + P.cross Q) * R.x) /
    (1 - d * ((P.x * Q.y + P.y * Q.x) / (1 + P.cross Q)) * R.x *
      ((P.y * Q.y + P.x * Q.x) / (1 - P.cross Q)) * R.y) = _
  generalize 1 + P.cross Q = a at ha ⊢
  generalize 1 - P.cross Q = b at hb ⊢
  field_simp

/-- The cross product of a sum, multiplied out. -/
theorem cross_add (P Q R : Point d) :
    (1 + P.cross Q) * (1 - P.cross Q) * (P.add Q).cross R =
      d * (P.x * Q.y + P.y * Q.x) * (P.y * Q.y + P.x * Q.x) * R.x * R.y := by
  have ha := P.one_add_cross_ne_zero Q
  have hb := P.one_sub_cross_ne_zero Q
  show _ * (d * ((P.x * Q.y + P.y * Q.x) / (1 + P.cross Q)) * R.x *
    ((P.y * Q.y + P.x * Q.x) / (1 - P.cross Q)) * R.y) = _
  generalize 1 + P.cross Q = a at ha ⊢
  generalize 1 - P.cross Q = b at hb ⊢
  field_simp

theorem add_add_denominators (P Q R : Point d) :
    (1 + P.cross Q) * (1 - P.cross Q) + d * (P.x * Q.y + P.y * Q.x) *
      (P.y * Q.y + P.x * Q.x) * R.x * R.y ≠ 0 ∧
    (1 + P.cross Q) * (1 - P.cross Q) - d * (P.x * Q.y + P.y * Q.x) *
      (P.y * Q.y + P.x * Q.x) * R.x * R.y ≠ 0 := by
  have hab := mul_ne_zero (P.one_add_cross_ne_zero Q) (P.one_sub_cross_ne_zero Q)
  rw [← cross_add]
  constructor
  · rw [← mul_one_add]
    exact mul_ne_zero hab ((P.add Q).one_add_cross_ne_zero R)
  · rw [← mul_one_sub]
    exact mul_ne_zero hab ((P.add Q).one_sub_cross_ne_zero R)

theorem add_assoc (P Q R : Point d) : (P.add Q).add R = P.add (Q.add R) := by
  obtain ⟨hplus, hminus⟩ := add_add_denominators P Q R
  obtain ⟨hplus', hminus'⟩ := add_add_denominators Q R P
  have h₁ := P.onCurve
  have h₂ := Q.onCurve
  have h₃ := R.onCurve
  rw [add_comm P (Q.add R)]
  apply Point.ext
  · rw [add_add_x, add_add_x, div_eq_div_iff hplus hplus']
    simp only [cross]
    generalize P.x = x₁ at *
    generalize P.y = y₁ at *
    generalize Q.x = x₂ at *
    generalize Q.y = y₂ at *
    generalize R.x = x₃ at *
    generalize R.y = y₃ at *
    linear_combination
      (-d ^ 2 * x₁ * x₂ ^ 4 * y₂ ^ 3 * x₃ ^ 2 * y₃ - d ^ 2 * x₁ * x₂ ^ 3 * y₂ ^ 4 * x₃ * y₃ ^ 2
        + d ^ 2 * y₁ * x₂ ^ 4 * y₂ ^ 3 * x₃ * y₃ ^ 2 + d ^ 2 * y₁ * x₂ ^ 3 * y₂ ^ 4 * x₃ ^ 2 * y₃
        - d * x₁ * x₂ ^ 4 * y₂ * x₃ ^ 2 * y₃ - d * x₁ * x₂ ^ 3 * y₂ ^ 2 * x₃ ^ 3
        - d * x₁ * x₂ ^ 3 * y₂ ^ 2 * x₃ + d * x₁ * x₂ ^ 2 * y₂ ^ 3 * y₃ ^ 3 - d *
          x₁ * x₂ ^ 2 * y₂ ^ 3 * y₃
        + d * x₁ * x₂ * y₂ ^ 4 * x₃ * y₃ ^ 2 + d * y₁ * x₂ ^ 4 * y₂ * x₃ * y₃ ^ 2
        + d * y₁ * x₂ ^ 3 * y₂ ^ 2 * y₃ ^ 3 - d * y₁ * x₂ ^ 3 * y₂ ^ 2 * y₃
        - d * y₁ * x₂ ^ 2 * y₂ ^ 3 * x₃ ^ 3 - d * y₁ * x₂ ^ 2 * y₂ ^ 3 * x₃
        - d * y₁ * x₂ * y₂ ^ 4 * x₃ ^ 2 * y₃) * h₁ +
      (d * x₁ ^ 3 * x₂ ^ 2 * y₂ * x₃ ^ 2 * y₃ + d * x₁ ^ 3 * x₂ * y₂ ^ 2 * x₃ * y₃ ^ 2
        - d * x₁ ^ 2 * y₁ * x₂ ^ 2 * y₂ * x₃ ^ 3 - d * x₁ ^ 2 * y₁ * x₂ ^ 2 * y₂ * x₃
        - d * x₁ ^ 2 * y₁ * x₂ * y₂ ^ 2 * y₃ ^ 3 + d * x₁ ^ 2 * y₁ * x₂ * y₂ ^ 2 * y₃
        - d * x₁ * y₁ ^ 2 * x₂ ^ 2 * y₂ * y₃ ^ 3 + d * x₁ * y₁ ^ 2 * x₂ ^ 2 * y₂ * y₃
        - d * x₁ * y₁ ^ 2 * x₂ * y₂ ^ 2 * x₃ ^ 3 - d * x₁ * y₁ ^ 2 * x₂ * y₂ ^ 2 * x₃
        + d * x₁ * x₂ ^ 2 * y₂ * x₃ ^ 2 * y₃ + d * x₁ * x₂ * y₂ ^ 2 * x₃ * y₃ ^ 2
        + d * y₁ ^ 3 * x₂ ^ 2 * y₂ * x₃ * y₃ ^ 2 + d * y₁ ^ 3 * x₂ * y₂ ^ 2 * x₃ ^ 2 * y₃
        - d * y₁ * x₂ ^ 2 * y₂ * x₃ * y₃ ^ 2 - d * y₁ * x₂ * y₂ ^ 2 * x₃ ^ 2 * y₃) * h₂ +
      (d ^ 2 * x₁ ^ 2 * y₁ * x₂ ^ 4 * y₂ ^ 3 * x₃ - d ^ 2 * x₁ ^ 2 * y₁ * x₂ ^ 3 * y₂ ^ 4 * y₃
        - d ^ 2 * x₁ * y₁ ^ 2 * x₂ ^ 4 * y₂ ^ 3 * y₃ + d ^ 2 * x₁ * y₁ ^ 2 * x₂ ^ 3 * y₂ ^ 4 * x₃
        + d * x₁ ^ 3 * x₂ ^ 3 * y₂ ^ 2 * x₃ + d * x₁ ^ 3 * x₂ ^ 2 * y₂ ^ 3 * y₃
        + d * x₁ ^ 2 * y₁ * x₂ ^ 4 * y₂ * x₃ + d * x₁ ^ 2 * y₁ * x₂ * y₂ ^ 4 * y₃
        - d * x₁ * y₁ ^ 2 * x₂ ^ 4 * y₂ * y₃ - d * x₁ * y₁ ^ 2 * x₂ * y₂ ^ 4 * x₃
        + d * x₁ * x₂ ^ 3 * y₂ ^ 2 * x₃ + d * x₁ * x₂ ^ 2 * y₂ ^ 3 * y₃ - d *
          y₁ ^ 3 * x₂ ^ 3 * y₂ ^ 2 * y₃
        - d * y₁ ^ 3 * x₂ ^ 2 * y₂ ^ 3 * x₃ + d * y₁ * x₂ ^ 3 * y₂ ^ 2 * y₃ +
          d * y₁ * x₂ ^ 2 * y₂ ^ 3 * x₃) * h₃
  · rw [add_add_y, add_add_y, div_eq_div_iff hminus hminus']
    simp only [cross]
    generalize P.x = x₁ at *
    generalize P.y = y₁ at *
    generalize Q.x = x₂ at *
    generalize Q.y = y₂ at *
    generalize R.x = x₃ at *
    generalize R.y = y₃ at *
    linear_combination
      (d ^ 2 * x₁ * x₂ ^ 4 * y₂ ^ 3 * x₃ * y₃ ^ 2 + d ^ 2 * x₁ * x₂ ^ 3 * y₂ ^ 4 * x₃ ^ 2 * y₃
        - d ^ 2 * y₁ * x₂ ^ 4 * y₂ ^ 3 * x₃ ^ 2 * y₃ - d ^ 2 * y₁ * x₂ ^ 3 * y₂ ^ 4 * x₃ * y₃ ^ 2
        + d * x₁ * x₂ ^ 4 * y₂ * x₃ * y₃ ^ 2 + d * x₁ * x₂ ^ 3 * y₂ ^ 2 * y₃ ^ 3
        - d * x₁ * x₂ ^ 3 * y₂ ^ 2 * y₃ - d * x₁ * x₂ ^ 2 * y₂ ^ 3 * x₃ ^ 3 - d *
          x₁ * x₂ ^ 2 * y₂ ^ 3 * x₃
        - d * x₁ * x₂ * y₂ ^ 4 * x₃ ^ 2 * y₃ - d * y₁ * x₂ ^ 4 * y₂ * x₃ ^ 2 * y₃
        - d * y₁ * x₂ ^ 3 * y₂ ^ 2 * x₃ ^ 3 - d * y₁ * x₂ ^ 3 * y₂ ^ 2 * x₃
        + d * y₁ * x₂ ^ 2 * y₂ ^ 3 * y₃ ^ 3 - d * y₁ * x₂ ^ 2 * y₂ ^ 3 * y₃
        + d * y₁ * x₂ * y₂ ^ 4 * x₃ * y₃ ^ 2) * h₁ +
      (-d * x₁ ^ 3 * x₂ ^ 2 * y₂ * x₃ * y₃ ^ 2 - d * x₁ ^ 3 * x₂ * y₂ ^ 2 * x₃ ^ 2 * y₃
        + d * x₁ ^ 2 * y₁ * x₂ ^ 2 * y₂ * y₃ ^ 3 - d * x₁ ^ 2 * y₁ * x₂ ^ 2 * y₂ * y₃
        + d * x₁ ^ 2 * y₁ * x₂ * y₂ ^ 2 * x₃ ^ 3 + d * x₁ ^ 2 * y₁ * x₂ * y₂ ^ 2 * x₃
        + d * x₁ * y₁ ^ 2 * x₂ ^ 2 * y₂ * x₃ ^ 3 + d * x₁ * y₁ ^ 2 * x₂ ^ 2 * y₂ * x₃
        + d * x₁ * y₁ ^ 2 * x₂ * y₂ ^ 2 * y₃ ^ 3 - d * x₁ * y₁ ^ 2 * x₂ * y₂ ^ 2 * y₃
        - d * x₁ * x₂ ^ 2 * y₂ * x₃ * y₃ ^ 2 - d * x₁ * x₂ * y₂ ^ 2 * x₃ ^ 2 * y₃
        - d * y₁ ^ 3 * x₂ ^ 2 * y₂ * x₃ ^ 2 * y₃ - d * y₁ ^ 3 * x₂ * y₂ ^ 2 * x₃ * y₃ ^ 2
        + d * y₁ * x₂ ^ 2 * y₂ * x₃ ^ 2 * y₃ + d * y₁ * x₂ * y₂ ^ 2 * x₃ * y₃ ^ 2) * h₂ +
      (d ^ 2 * x₁ ^ 2 * y₁ * x₂ ^ 4 * y₂ ^ 3 * y₃ - d ^ 2 * x₁ ^ 2 * y₁ * x₂ ^ 3 * y₂ ^ 4 * x₃
        - d ^ 2 * x₁ * y₁ ^ 2 * x₂ ^ 4 * y₂ ^ 3 * x₃ + d ^ 2 * x₁ * y₁ ^ 2 * x₂ ^ 3 * y₂ ^ 4 * y₃
        + d * x₁ ^ 3 * x₂ ^ 3 * y₂ ^ 2 * y₃ + d * x₁ ^ 3 * x₂ ^ 2 * y₂ ^ 3 * x₃
        + d * x₁ ^ 2 * y₁ * x₂ ^ 4 * y₂ * y₃ + d * x₁ ^ 2 * y₁ * x₂ * y₂ ^ 4 * x₃
        - d * x₁ * y₁ ^ 2 * x₂ ^ 4 * y₂ * x₃ - d * x₁ * y₁ ^ 2 * x₂ * y₂ ^ 4 * y₃
        + d * x₁ * x₂ ^ 3 * y₂ ^ 2 * y₃ + d * x₁ * x₂ ^ 2 * y₂ ^ 3 * x₃ - d *
          y₁ ^ 3 * x₂ ^ 3 * y₂ ^ 2 * x₃
        - d * y₁ ^ 3 * x₂ ^ 2 * y₂ ^ 3 * y₃ + d * y₁ * x₂ ^ 3 * y₂ ^ 2 * x₃ +
          d * y₁ * x₂ ^ 2 * y₂ ^ 3 * y₃) * h₃

theorem neg_add_cancel (P : Point d) : P.neg.add P = zero := by
  have hy : P.y * P.y + -P.x * P.x = 1 - P.neg.cross P := by
    show _ = 1 - d * -P.x * P.x * P.y * P.y
    linear_combination P.onCurve
  apply Point.ext
  · show (-P.x * P.y + P.y * P.x) / (1 + P.neg.cross P) = 0
    rw [show -P.x * P.y + P.y * P.x = 0 by ring, zero_div]
  · show (P.y * P.y + -P.x * P.x) / (1 - P.neg.cross P) = 1
    rw [hy, div_self (one_sub_cross_ne_zero P.neg P)]

instance instZero : Zero (Point d) := ⟨zero⟩

instance instNeg : Neg (Point d) := ⟨neg⟩

instance instAdd : Add (Point d) := ⟨add⟩

instance addCommGroup : AddCommGroup (Point d) where
  add_assoc := add_assoc
  zero_add := zero_add
  add_zero P := (add_comm P zero).trans (zero_add P)
  nsmul := nsmulRec
  zsmul := zsmulRec
  neg_add_cancel := neg_add_cancel
  add_comm := add_comm

end Point

end Edwards
